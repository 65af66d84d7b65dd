import Agiru.Series.Filters

/-! The numbers that a filter denotes as intervals, and those that it accepts.

The intervals read an operand by another reader than the filter, and their sums wrap. A filter denotes the numbers
that it would accept with each operand as that reader takes it, and with every number for what is below the first
one of 64 bits or above the last (`intervals_denote_iff`). -/
namespace Agiru.Series
open Bytes Agiru.Filter
open Intervals

variable {text : Bytes} {v : Int}

/-! ### Filters as their intervals take them -/

/-- What `AsInteger` reads of an operand: a plus sign before it is passed over. -/
def passed (operand : Bytes) : Bytes := if operand.head? = some Ch.plus then operand.tail else operand

/-- What no number of 64 bits is: below the first of them, or above the last. -/
def Beyond (atom : Atom) : Prop :=
  (atom.compare = .less ∧ asInteger atom.value = some (-2 ^ 63)) ∨
    (atom.compare = .greater ∧ asInteger atom.value = some (2 ^ 63 - 1))

instance (atom : Atom) : Decidable (Beyond atom) := inferInstanceAs (Decidable (_ ∨ _))

/-- An atom as its intervals take it. -/
def taken (atom : Atom) : Atom :=
  if Beyond atom then {compare := .between, openLower := true, openUpper := true}
  else {atom with value := passed atom.value, upper := passed atom.upper}

/-- An atom that has intervals. -/
def Numbered (atom : Atom) : Prop :=
  (atom.compare ≠ .like ∧ atom.compare ≠ .notLike) ∧ ∀ operand ∈ atom.operands, (asInteger operand).isSome

instance (atom : Atom) : Decidable (Numbered atom) := inferInstanceAs (Decidable (_ ∧ _))

/-- An atom that is taken as it is read: nothing in it is beyond 64 bits, and no operand begins with two signs. -/
def Plain (atom : Atom) : Prop :=
  ¬ Beyond atom ∧ ∀ operand ∈ atom.operands, ¬ [Ch.plus, Ch.minus] <+: operand

instance (atom : Atom) : Decidable (Plain atom) := inferInstanceAs (Decidable (_ ∧ _))

/-- Intervals that are what a filter says of the numbers of a domain. -/
structure Denotes (field : FieldDef) (expression : Expression) (domain : Interval) (is : List Interval) :
    Prop where
  gapped : Gapped is
  count : countOf is = {n | Covers is n}.ncard
  mem : ∀ n ∈ domain, Covers is n ↔ matchesValue expression (intText n) field = true

/-! ### Operands -/

/-- A sign and digits are read as the number they write. -/
theorem readInteger_whole {low high : Int} {digits : Bytes} {negative : Bool}
    (hsigned : signed text = (negative, digits)) (hne : digits ≠ []) (hdigits : Digits digits)
    (hlow : low ≤ if negative then -(digitsValue digits : Int) else (digitsValue digits : Int))
    (hhigh : (if negative then -(digitsValue digits : Int) else (digitsValue digits : Int)) ≤ high) :
    readInteger low high text =
      some (if negative then -(digitsValue digits : Int) else (digitsValue digits : Int)) := by
  have hwhole : WholeNumber text := by
    rw [WholeNumber, hsigned]
    exact ⟨hne, hdigits⟩
  have hall : digits.all isDigit = true := List.all_eq_true.mpr hdigits
  rw [readInteger, trim_whole hwhole, hsigned]
  dsimp only
  rw [if_neg (by simp [hne, hall]), if_pos ⟨hlow, hhigh⟩]

/-- What `AsInteger` reads without a plus sign, every reader reads. -/
theorem readInteger_of_fromChars (h : Json.fromChars text = some v) :
    readInteger (-2 ^ 63) (2 ^ 63 - 1) text = some v := by
  unfold Json.fromChars at h
  obtain ⟨⟨hne, hdigits, hlow, hhigh⟩, hv⟩ := Option.ite_none_right_eq_some.mp h
  obtain rfl := Option.some.inj hv
  cases text with
  | nil => exact absurd rfl hne
  | cons c rest =>
    by_cases hminus : c = Ch.minus
    · have hsigned : signed (c :: rest) = (true, rest) := by rw [signed, if_pos hminus]
      simp only [List.head?_cons, hminus, if_true, List.tail_cons] at hne hdigits hlow hhigh ⊢
      rw [hminus] at hsigned
      exact readInteger_whole hsigned hne hdigits hlow (by simp only [if_true]; omega)
    · have hhead : ((c :: rest).head? = some Ch.minus) = False := by simp [hminus]
      simp only [hhead, if_false] at hne hdigits hlow hhigh ⊢
      have hplus : c ≠ Ch.plus := by
        rintro rfl
        exact absurd (hdigits _ List.mem_cons_self) (by decide)
      have hsigned : signed (c :: rest) = (false, c :: rest) := by rw [signed, if_neg hminus, if_neg hplus]
      exact readInteger_whole hsigned hne hdigits hlow (by simp only [Bool.false_eq_true, if_false]; omega)

theorem fits_of_fromChars (h : Json.fromChars text = some v) : Json.Fits64 v := by
  obtain ⟨-, -, -, hlow, hhigh⟩ := readInteger_some (readInteger_of_fromChars h)
  exact ⟨hlow, Int.lt_of_le_sub_one hhigh⟩

theorem stoll_of_fromChars (h : Json.fromChars text = some v) : stoll text = some v :=
  stoll_of_readInteger (readInteger_of_fromChars h) (Int.le_refl _) (by decide)

/-- Nor does the filter stop at a plus sign, unless a minus sign follows it. -/
theorem stoll_of_asInteger (h : asInteger text = some v) (hsigns : ¬ [Ch.plus, Ch.minus] <+: text) :
    stoll text = some v := by
  unfold asInteger at h
  by_cases hplus : text.head? = some Ch.plus
  · obtain ⟨rest, rfl⟩ := List.head?_eq_some_iff.mp hplus
    have hminus : rest.head? ≠ some Ch.minus := by
      intro hhead
      obtain ⟨behind, rfl⟩ := List.head?_eq_some_iff.mp hhead
      exact hsigns ⟨behind, rfl⟩
    rw [if_pos hplus, List.tail_cons, Json.fromChars] at h
    obtain ⟨⟨hne, hdigits, hlow, hhigh⟩, hv⟩ := Option.ite_none_right_eq_some.mp h
    obtain rfl := Option.some.inj hv
    simp only [hminus, if_false] at hne hdigits hlow hhigh ⊢
    exact stoll_of_readInteger (readInteger_whole rfl hne hdigits hlow (Int.le_sub_one_of_lt hhigh)) (Int.le_refl _)
      (by decide)
  · rw [if_neg hplus] at h
    exact stoll_of_fromChars h

theorem wrapped_pred (h : Json.Fits64 v) : wrapped (v - 1) = if v = -2 ^ 63 then 2 ^ 63 - 1 else v - 1 := by
  unfold Json.Fits64 at h
  split
  · next heq =>
    rw [heq]
    decide
  · exact wrapped_of_fits (by omega) (by omega)

theorem wrapped_succ (h : Json.Fits64 v) : wrapped (v + 1) = if v = 2 ^ 63 - 1 then -2 ^ 63 else v + 1 := by
  unfold Json.Fits64 at h
  split
  · next heq =>
    rw [heq]
    decide
  · exact wrapped_of_fits (by omega) (by omega)

section
variable {field : FieldDef} (hcounts : Counts field)
include hcounts

theorem order_read {operand : Bytes} {n : Int} (h : stoll operand = some v) (hlow : -2 ^ 63 ≤ n)
    (hhigh : n ≤ 2 ^ 63 - 1) : order (intText n) operand field = Ord.compare n v := by
  unfold order
  rcases hcounts with htype | htype <;> rw [htype] <;> dsimp only <;> rw [stoll_intText hlow hhigh, h]

theorem order_passed {operand : Bytes} {n : Int} (h : asInteger operand = some v) (hlow : -2 ^ 63 ≤ n)
    (hhigh : n ≤ 2 ^ 63 - 1) : order (intText n) (passed operand) field = Ord.compare n v :=
  order_read hcounts (stoll_of_fromChars h) hlow hhigh

theorem satisfies_counts (atom : Atom) (value : Bytes) :
    satisfies atom value field = satisfiesCanonical atom value field := by
  unfold satisfies
  rcases hcounts with htype | htype <;> simp [htype]

theorem satisfies_taken {atom : Atom} (h : Numbered atom) (hplain : Plain atom) {n : Int} (hlow : -2 ^ 63 ≤ n)
    (hhigh : n ≤ 2 ^ 63 - 1) : satisfies (taken atom) (intText n) field = satisfies atom (intText n) field := by
  have hsame : ∀ operand ∈ atom.operands,
      order (intText n) (passed operand) field = order (intText n) operand field := by
    intro operand hoperand
    obtain ⟨v, hv⟩ := Option.isSome_iff_exists.mp (h.2 operand hoperand)
    have hread := stoll_of_asInteger hv (hplain.2 operand hoperand)
    rw [order_passed hcounts hv hlow hhigh, order_read hcounts hread hlow hhigh]
  rw [satisfies_counts hcounts, satisfies_counts hcounts, taken, if_neg hplain.1]
  unfold Atom.operands at hsame
  unfold satisfiesCanonical
  have hnumeric := numeric_counts hcounts
  cases hcompare : atom.compare with
  | like => exact absurd hcompare h.1.1
  | notLike => exact absurd hcompare h.1.2
  | equal | notEqual | less | lessOrEqual | greater | greaterEqual =>
    simp only [hcompare, List.mem_singleton, forall_eq] at hsame
    simp only [sameValue, hnumeric, if_true, hsame]
  | between =>
    simp only [hcompare] at hsame ⊢
    cases hlower : atom.openLower <;> cases hupper : atom.openUpper <;> simp [hlower, hupper] at hsame ⊢ <;>
      simp [hsame]

/-- A filter of such atoms is taken as it is read. -/
theorem matches_taken {expression : Expression}
    (h : ∀ all ∈ expression, ∀ atom ∈ all, Numbered atom ∧ Plain atom) {n : Int} (hlow : -2 ^ 63 ≤ n)
    (hhigh : n ≤ 2 ^ 63 - 1) :
    matchesValue (expression.map (List.map taken)) (intText n) field = matchesValue expression (intText n) field := by
  rw [Bool.eq_iff_iff, matchesValue_iff, matchesValue_iff]
  simp only [List.map_eq_nil_iff, List.mem_map, exists_exists_and_eq_and, forall_exists_index, and_imp,
    forall_apply_eq_imp_iff₂]
  refine or_congr_right (exists_congr fun all => and_congr_right fun hall => forall₂_congr fun atom hatom => ?_)
  obtain ⟨hnumbered, hplain⟩ := h all hall atom hatom
  rw [satisfies_taken hcounts hnumbered hplain hlow hhigh]

/-! ### The intervals of an atom -/

section
variable {domain : Interval} (hlow : -2 ^ 31 ≤ domain.low) (hhigh : domain.high ≤ 2 ^ 31 - 1) {atom : Atom}
include hlow hhigh

/-- What compares with one operand admits, as intervals, what it takes. -/
theorem admits_one (accepts : Ordering → Bool) {operand : Bytes} (hv : asInteger operand = some v)
    {set : List Interval} (hset : ∀ n ∈ domain, Covers set n ↔ accepts (Ord.compare n v) = true) :
    Admits domain (normalised set) fun n => accepts (order (intText n) (passed operand) field) = true := by
  apply admits_normalised
  intro n hn
  rw [order_passed hcounts hv (by have := hn.1; omega) (by have := hn.2; omega)]
  exact hset n hn

omit hcounts hlow hhigh in
theorem not_beyond (hless : atom.compare ≠ .less) (hgreater : atom.compare ≠ .greater) : ¬ Beyond atom := by
  simp [Beyond, hless, hgreater]

theorem admitted_taken (h : Numbered atom) :
    ∃ is, admitted atom domain = some is ∧
      Admits domain is fun n => satisfies (taken atom) (intText n) field = true := by
  obtain ⟨⟨hlike, hnotLike⟩, hnumbers⟩ := h
  have hnumeric := numeric_counts hcounts
  unfold Atom.operands at hnumbers
  unfold admitted taken
  simp only [satisfies_counts hcounts]
  cases hcompare : atom.compare with
  | like => exact absurd hcompare hlike
  | notLike => exact absurd hcompare hnotLike
  | equal =>
    simp only [hcompare, List.mem_singleton, forall_eq] at hnumbers ⊢
    obtain ⟨v, hv⟩ := Option.isSome_iff_exists.mp hnumbers
    refine ⟨_, by rw [hv]; rfl, apart_singleton le_rfl, fun n hn => ?_⟩
    rw [if_neg (not_beyond (by simp [hcompare]) (by simp [hcompare]))]
    simp only [satisfiesCanonical, sameValue, hnumeric, if_true, covers_singleton, decide_eq_true_eq, mem_interval]
    rw [order_passed hcounts hv (by have := hn.1; omega) (by have := hn.2; omega), compare_eq_iff_eq]
    omega
  | notEqual =>
    simp only [hcompare, List.mem_singleton, forall_eq] at hnumbers ⊢
    obtain ⟨v, hv⟩ := Option.isSome_iff_exists.mp hnumbers
    have hfits := fits_of_fromChars hv
    refine ⟨_, by rw [hv]; rfl, ?_⟩
    rw [if_neg (not_beyond (by simp [hcompare]) (by simp [hcompare]))]
    simp only [satisfiesCanonical, sameValue, hnumeric, if_true]
    apply admits_one hcounts hlow hhigh (fun o => !decide (o = .eq)) hv
    intro n hn
    simp only [wrapped_pred hfits, wrapped_succ hfits, covers_cons, not_covers_nil, or_false, Bool.not_eq_true',
      decide_eq_false_iff_not, compare_eq_iff_eq, mem_interval] at hn ⊢
    unfold Json.Fits64 at hfits
    split <;> split <;> omega
  | less =>
    simp only [hcompare, List.mem_singleton, forall_eq] at hnumbers ⊢
    obtain ⟨v, hv⟩ := Option.isSome_iff_exists.mp hnumbers
    have hfits := fits_of_fromChars hv
    refine ⟨_, by rw [hv]; rfl, ?_⟩
    by_cases hfirst : v = -2 ^ 63
    · -- the sum wraps, and nothing is left out
      rw [if_pos (.inl ⟨hcompare, by rw [hv, hfirst]⟩)]
      apply admits_normalised
      intro n hn
      simp only [wrapped_pred hfits, if_pos hfirst, covers_singleton, satisfiesCanonical, Bool.true_or, Bool.and_true,
        iff_true, mem_interval] at hn ⊢
      omega
    · rw [if_neg (by simpa [Beyond, hcompare, hv] using hfirst)]
      simp only [satisfiesCanonical]
      apply admits_one hcounts hlow hhigh (fun o => decide (o = .lt)) hv
      intro n hn
      simp only [wrapped_pred hfits, if_neg hfirst, covers_singleton, decide_eq_true_eq, compare_lt_iff_lt,
        mem_interval] at hn ⊢
      omega
  | lessOrEqual =>
    simp only [hcompare, List.mem_singleton, forall_eq] at hnumbers ⊢
    obtain ⟨v, hv⟩ := Option.isSome_iff_exists.mp hnumbers
    refine ⟨_, by rw [hv]; rfl, ?_⟩
    rw [if_neg (not_beyond (by simp [hcompare]) (by simp [hcompare]))]
    simp only [satisfiesCanonical]
    apply admits_one hcounts hlow hhigh (fun o => decide (o ≠ .gt)) hv
    intro n hn
    simp only [covers_singleton, decide_eq_true_eq, ne_eq, compare_gt_iff_gt, mem_interval] at hn ⊢
    omega
  | greater =>
    simp only [hcompare, List.mem_singleton, forall_eq] at hnumbers ⊢
    obtain ⟨v, hv⟩ := Option.isSome_iff_exists.mp hnumbers
    have hfits := fits_of_fromChars hv
    refine ⟨_, by rw [hv]; rfl, ?_⟩
    by_cases hlast : v = 2 ^ 63 - 1
    · rw [if_pos (.inr ⟨hcompare, by rw [hv, hlast]⟩)]
      apply admits_normalised
      intro n hn
      simp only [wrapped_succ hfits, if_pos hlast, covers_singleton, satisfiesCanonical, Bool.true_or, Bool.and_true,
        iff_true, mem_interval] at hn ⊢
      omega
    · rw [if_neg (by simpa [Beyond, hcompare, hv] using hlast)]
      simp only [satisfiesCanonical]
      apply admits_one hcounts hlow hhigh (fun o => decide (o = .gt)) hv
      intro n hn
      simp only [wrapped_succ hfits, if_neg hlast, covers_singleton, decide_eq_true_eq, compare_gt_iff_gt,
        mem_interval] at hn ⊢
      omega
  | greaterEqual =>
    simp only [hcompare, List.mem_singleton, forall_eq] at hnumbers ⊢
    obtain ⟨v, hv⟩ := Option.isSome_iff_exists.mp hnumbers
    refine ⟨_, by rw [hv]; rfl, ?_⟩
    rw [if_neg (not_beyond (by simp [hcompare]) (by simp [hcompare]))]
    simp only [satisfiesCanonical]
    apply admits_one hcounts hlow hhigh (fun o => decide (o ≠ .lt)) hv
    intro n hn
    simp only [covers_singleton, decide_eq_true_eq, ne_eq, compare_lt_iff_lt, mem_interval] at hn ⊢
    omega
  | between =>
    simp only [hcompare] at hnumbers ⊢
    rw [if_neg (not_beyond (by simp [hcompare]) (by simp [hcompare]))]
    simp only [satisfiesCanonical]
    have hordered : ∀ {operand : Bytes} {v : Int}, asInteger operand = some v → ∀ n ∈ domain,
        order (intText n) (passed operand) field = Ord.compare n v := by
      intro operand v hv n hn
      exact order_passed hcounts hv (by have := hn.1; omega) (by have := hn.2; omega)
    cases hlower : atom.openLower <;> cases hupper : atom.openUpper <;>
      simp only [hlower, hupper, Bool.false_eq_true, if_true, if_false, List.singleton_append, List.nil_append,
        List.append_nil, List.mem_cons, List.not_mem_nil, or_false, forall_eq, forall_eq_or_imp,
        Option.isSome_iff_exists] at hnumbers ⊢
    · obtain ⟨⟨low, hlow⟩, high, hhigh⟩ := hnumbers
      refine ⟨_, by rw [hlow, hhigh]; rfl, admits_normalised fun n hn => ?_⟩
      simp only [hordered hlow n hn, hordered hhigh n hn, covers_singleton, Bool.false_or, Bool.and_eq_true,
        decide_eq_true_eq, ne_eq, compare_lt_iff_lt, compare_gt_iff_gt, mem_interval]
      omega
    · obtain ⟨low, hlow⟩ := hnumbers
      refine ⟨_, by rw [hlow]; rfl, admits_normalised fun n hn => ?_⟩
      have hn' := mem_interval.mp hn
      simp only [hordered hlow n hn, covers_singleton, Bool.false_or, Bool.true_or, Bool.and_true, decide_eq_true_eq,
        ne_eq, compare_lt_iff_lt, mem_interval]
      omega
    · obtain ⟨high, hhigh⟩ := hnumbers
      refine ⟨_, by rw [hhigh]; rfl, admits_normalised fun n hn => ?_⟩
      have hn' := mem_interval.mp hn
      simp only [hordered hhigh n hn, covers_singleton, Bool.false_or, Bool.true_or, Bool.true_and, decide_eq_true_eq,
        ne_eq, compare_gt_iff_gt, mem_interval]
      omega
    · refine ⟨_, rfl, admits_normalised fun n hn => ?_⟩
      exact iff_of_true (covers_singleton.mpr hn) rfl

end

end

/-- What has no intervals is a pattern, or has an operand that is not a number. -/
theorem numbered_of_admitted {atom : Atom} {domain : Interval} (h : (admitted atom domain).isSome) :
    Numbered atom := by
  unfold admitted at h
  unfold Numbered Atom.operands
  cases hcompare : atom.compare with
  | like | notLike =>
    rw [hcompare] at h
    cases h
  | equal | notEqual | less | lessOrEqual | greater | greaterEqual =>
    simp only [hcompare, Option.isSome_map] at h
    simpa using h
  | between =>
    simp only [hcompare] at h
    cases hlower : atom.openLower <;> cases hupper : atom.openUpper <;>
      cases hvalue : asInteger atom.value <;> cases hbound : asInteger atom.upper <;>
      simp [hlower, hupper, hvalue, hbound] at h ⊢

theorem numbered_of_narrowed {domain : Interval} {so : List Interval} {atoms : All}
    (h : (narrowed domain so atoms).isSome) : ∀ atom ∈ atoms, Numbered atom := by
  induction atoms generalizing so with
  | nil => simp
  | cons atom atoms ih =>
    rw [narrowed] at h
    cases hone : admitted atom domain with
    | none => simp [hone] at h
    | some one =>
      rw [hone] at h
      exact List.forall_mem_cons.mpr ⟨numbered_of_admitted (by rw [hone]; rfl), ih h⟩

/-- Intervals are made of every operand. -/
theorem numbered_of_intervals {expression : Expression} {domain : Interval}
    (h : (integerIntervals expression domain).isSome) : ∀ all ∈ expression, ∀ atom ∈ all, Numbered atom := by
  intro all hall
  unfold integerIntervals at h
  rw [if_neg (List.ne_nil_of_mem hall), Option.isSome_map] at h
  exact numbered_of_narrowed (isSome_of_mapM h all hall)

/-! ### Counting -/

theorem countFrom_eq {is : List Interval} (hfull : ∀ i ∈ is, i.low ≤ i.high) (count : Int)
    (hcount : wrapped count = count) :
    is.foldl (fun count one => wrapped (count + (one.high - one.low + 1))) count =
      wrapped (count + (numbers is).length) := by
  induction is generalizing count with
  | nil => simp [numbers, hcount]
  | cons one rest ih =>
    obtain ⟨hone, hrest⟩ := List.forall_mem_cons.mp hfull
    have hsize : ((one.numbers.length : Nat) : Int) = one.high - one.low + 1 := by
      rw [interval_numbers_length, Int.toNat_of_nonneg (by unfold Interval.size; omega)]
      rfl
    have hagain : ∀ n, wrapped (wrapped n) = wrapped n := fun n => Int.bmod_bmod
    rw [List.foldl_cons, ih hrest _ (hagain _), numbers_cons, List.length_append, Nat.cast_add, hsize]
    unfold wrapped
    rw [Int.bmod_add_bmod, add_assoc]

/-- The numbers of a domain of 32 bits are counted. -/
theorem countOf_eq {is : List Interval} (h : Apart is) {domain : Interval} (hlow : -2 ^ 31 ≤ domain.low)
    (hhigh : domain.high ≤ 2 ^ 31 - 1) (hwithin : ∀ n, Covers is n → n ∈ domain) :
    countOf is = {n | Covers is n}.ncard := by
  have hnodup : (numbers is).Nodup := h.numbers_rising.imp fun hlt => ne_of_lt hlt
  have hsubset : numbers is ⊆ domain.numbers := fun n hn =>
    mem_interval_numbers.mpr (hwithin n (mem_numbers.mp hn))
  have hlength := (List.subperm_of_subset hnodup hsubset).length_le
  rw [interval_numbers_length, Interval.size] at hlength
  rw [countOf, countFrom_eq h.full 0 rfl, ← h.numbers_length, zero_add]
  exact wrapped_of_fits (by omega) (by omega)

/-! ### The intervals of a filter -/

section
variable {field : FieldDef} (hcounts : Counts field) {domain : Interval} (hfull : domain.low ≤ domain.high)
  (hlow : -2 ^ 31 ≤ domain.low) (hhigh : domain.high ≤ 2 ^ 31 - 1) {expression : Expression}
include hcounts hfull hlow hhigh

/-- As intervals, a filter has the numbers that it accepts as it is taken. -/
theorem integerIntervals_taken (h : ∀ all ∈ expression, ∀ atom ∈ all, Numbered atom) :
    ∃ is, integerIntervals expression domain = some is ∧ Gapped is ∧
      ∀ n, Covers is n ↔
        n ∈ domain ∧ matchesValue (expression.map (List.map taken)) (intText n) field = true := by
  obtain ⟨is, his, hgaps, hcovers⟩ := integerIntervals_admits hfull fun all hall atom hatom =>
    admitted_taken hcounts hlow hhigh (h all hall atom hatom)
  refine ⟨is, his, hgaps, fun n => (hcovers n).trans (and_congr_right fun _ => ?_)⟩
  rw [matchesValue_iff]
  simp

omit hcounts hfull hlow hhigh in
/-- What the database reads of whole numbers, the intervals and the filter read. -/
theorem plain_of_whole {atom : Atom} (hwhole : WholeAtom atom) (hreads : Readable atom) :
    Numbered atom ∧ Plain atom := by
  have hread : ∀ operand ∈ atom.operands, ∃ v, asInteger operand = some v ∧ -2 ^ 31 ≤ v ∧ v ≤ 2 ^ 31 - 1 := by
    intro operand hoperand
    obtain ⟨v, hv⟩ := Option.isSome_iff_exists.mp (hreads operand hoperand)
    exact ⟨v, asInteger_of_readInt4 (hwhole.2 operand hoperand) hv, readInt4_bounds hv⟩
  refine ⟨⟨hwhole.1, fun operand hoperand => ?_⟩, fun hbeyond => ?_, fun operand hoperand hsigns => ?_⟩
  · obtain ⟨v, hv, -⟩ := hread operand hoperand
    rw [hv]
    rfl
  · unfold Atom.operands at hread
    rcases hbeyond with ⟨hcompare, hv⟩ | ⟨hcompare, hv⟩
    all_goals
      simp only [hcompare, List.mem_singleton, forall_eq, hv, Option.some.injEq] at hread
      obtain ⟨v, rfl, hlow, hhigh⟩ := hread
      omega
  · obtain ⟨behind, rfl⟩ := hsigns
    exact absurd ((hwhole.2 _ hoperand).2 Ch.minus List.mem_cons_self) (by decide)

/-- **A filter of whole numbers admits, as intervals, the numbers that it accepts.** -/
theorem integerIntervals_spec (hwhole : WholeNumbers expression) (hreads : ReadableAll expression) :
    ∃ is, integerIntervals expression domain = some is ∧
      Admits domain is fun n => matchesValue expression (intText n) field = true := by
  have hplain : ∀ all ∈ expression, ∀ atom ∈ all, Numbered atom ∧ Plain atom := fun all hall atom hatom =>
    plain_of_whole (hwhole all hall atom hatom) ((hreads all hall).2 atom hatom)
  obtain ⟨is, his, hgaps, hcovers⟩ :=
    integerIntervals_taken hcounts hfull hlow hhigh fun all hall atom hatom => (hplain all hall atom hatom).1
  refine ⟨is, his, hgaps.apart, fun n hn => ?_⟩
  have hn' := mem_interval.mp hn
  rw [hcovers, and_iff_right hn, matches_taken hcounts hplain (by omega) (by omega)]

end

/-- **The intervals of a filter text are the numbers that it accepts** exactly where it accepts the same ones as it
is taken: without plus signs before its operands, and with every number for what is beyond 64 bits. -/
theorem intervals_denote_iff {field : FieldDef} (hinteger : field.type = .integer) (text : Bytes)
    {domain : Interval}
    (hfull : domain.low ≤ domain.high) (hlow : -2 ^ 31 ≤ domain.low) (hhigh : domain.high ≤ 2 ^ 31 - 1) :
    (∀ is, integerIntervals (parseFilter text) domain = some is → Denotes field (parseFilter text) domain is) ↔
      ((∀ all ∈ parseFilter text, ∀ atom ∈ all, Numbered atom) → ∀ n ∈ domain,
        matchesValue ((parseFilter text).map (List.map taken)) (intText n) field =
          matchesValue (parseFilter text) (intText n) field) := by
  constructor
  · intro h hnumbered n hn
    obtain ⟨is, his, -, hcovers⟩ := integerIntervals_taken (.inl hinteger) hfull hlow hhigh hnumbered
    rw [Bool.eq_iff_iff, ← (h is his).mem n hn, hcovers, and_iff_right hn]
  · intro h is his
    have hnumbered := numbered_of_intervals (by rw [his]; rfl)
    obtain ⟨is', his', hgaps, hcovers⟩ := integerIntervals_taken (.inl hinteger) hfull hlow hhigh hnumbered
    obtain rfl := Option.some.inj (his.symm.trans his')
    refine ⟨hgaps, countOf_eq hgaps.apart hlow hhigh fun n hn => ((hcovers n).mp hn).1, fun n hn => ?_⟩
    rw [hcovers, and_iff_right hn, h hnumbered n hn]

section Examples

def wholeField : FieldDef := {no := 1, name := ascii "Number", caption := ascii "Number", type := .integer}

/-- Numbers of 32 bits. -/
def integers : Interval := ⟨-2147483648, 2147483647⟩

/-- No operand of this filter is mistaken. -/
theorem intervals_denote_operands : ∃ is,
    integerIntervals (parseFilter (ascii "(1..5|>=9223372036854775807)&<>3|-7")) integers = some is ∧
      Denotes wholeField (parseFilter (ascii "(1..5|>=9223372036854775807)&<>3|-7")) integers is := by
  have hplain : ∀ all ∈ parseFilter (ascii "(1..5|>=9223372036854775807)&<>3|-7"), ∀ atom ∈ all,
      Numbered atom ∧ Plain atom := by decide +kernel
  obtain ⟨is, his, -⟩ := @integerIntervals_taken wholeField (.inl rfl) integers (by decide) (by decide) (by decide) _
    fun all hall atom hatom => (hplain all hall atom hatom).1
  refine ⟨is, his, (intervals_denote_iff rfl _ (by decide) (by decide) (by decide)).mpr (fun _ n hn => ?_) is his⟩
  exact matches_taken (.inl rfl) hplain (Int.le_trans (by decide) hn.1) (Int.le_trans hn.2 (by decide))

/-- `AsInteger` passes over the plus sign, and the filter does not. -/
theorem intervals_two_signs :
    ¬ ∀ is, integerIntervals (parseFilter (ascii "+-5")) integers = some is →
      Denotes wholeField (parseFilter (ascii "+-5")) integers is := by
  intro h
  obtain ⟨is, his, -, hcovers⟩ := @integerIntervals_taken wholeField (.inl rfl) integers (by decide) (by decide)
    (by decide) (parseFilter (ascii "+-5")) (by decide +kernel)
  have hfive : Covers is (-5) := (hcovers (-5)).mpr ⟨by decide, by decide +kernel⟩
  have hmatches := ((h is his).mem (-5) (by decide)).mp hfive
  revert hmatches
  decide +kernel

end Examples

end Agiru.Series
