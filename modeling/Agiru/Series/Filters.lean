import Agiru.Filter.Columns
import Agiru.Json.Exact
import Agiru.Series.Intervals

/-! What the intervals of a filter have to do with its clause.

A filter whose operands are whole numbers is read three times: the database reads the operands its clause binds,
the filter reads them to compare them with a value (`clauseSays_number`), and its intervals are made of them. -/
namespace Agiru.Series
open Bytes Agiru.Filter
open Intervals (Interval Covers Apart Gapped)

variable {operand : Bytes} {expression : Expression}
variable {n : Int}

/-- A field of whole numbers. -/
def Counts (field : FieldDef) : Prop := field.type = .integer ∨ field.type = .bigInteger

/-- The number that the database reads of a text. -/
def readInt4 (operand : Bytes) : Option Int := readInteger (-2 ^ 31) (2 ^ 31 - 1) operand

/-- The column of a number's row: `g::int`. -/
def numberColumn (n : Int) : Filter.Column :=
  { compare := fun bound => (readInt4 bound).map (Ord.compare n), text := intText n }

/-- A whole number as it is written: digits, with or without a sign. -/
def WholeNumber (operand : Bytes) : Prop := (signed operand).2 ≠ [] ∧ Digits (signed operand).2

instance (operand : Bytes) : Decidable (WholeNumber operand) :=
  inferInstanceAs (Decidable (_ ∧ _))

/-- An atom of whole numbers, without wildcards. -/
def WholeAtom (atom : Atom) : Prop :=
  (atom.compare ≠ .like ∧ atom.compare ≠ .notLike) ∧ ∀ operand ∈ atom.operands, WholeNumber operand

instance (atom : Atom) : Decidable (WholeAtom atom) := inferInstanceAs (Decidable (_ ∧ _))

def WholeNumbers (expression : Expression) : Prop := ∀ all ∈ expression, ∀ atom ∈ all, WholeAtom atom

instance (expression : Expression) : Decidable (WholeNumbers expression) :=
  inferInstanceAs (Decidable (∀ all ∈ expression, ∀ atom ∈ all, WholeAtom atom))

/-! ### An operand -/

theorem readInt4_bounds {v : Int} (h : readInt4 operand = some v) : -2 ^ 31 ≤ v ∧ v ≤ 2 ^ 31 - 1 := by
  obtain ⟨-, -, -, hlow, hhigh⟩ := readInteger_some h
  exact ⟨hlow, hhigh⟩

theorem operand_ne_nil (h : WholeNumber operand) : operand ≠ [] := by
  rintro rfl
  exact h.1 rfl

/-- Nothing is trimmed from a written number. -/
theorem trim_whole (h : WholeNumber operand) : trim operand = operand := by
  obtain ⟨hne, hdigits⟩ := h
  have hspace : ∀ c ∈ operand, isSpace c = false := by
    intro c hc
    unfold signed at hne hdigits
    split at hdigits
    · next d rest =>
      rcases List.mem_cons.mp hc with rfl | hc
      · split at hdigits
        · next hminus =>
          rw [hminus]
          rfl
        · split at hdigits
          · next hplus =>
            rw [hplus]
            rfl
          · exact isSpace_digit (hdigits c List.mem_cons_self)
      · split at hdigits
        · exact isSpace_digit (hdigits c hc)
        · split at hdigits
          · exact isSpace_digit (hdigits c hc)
          · exact isSpace_digit (hdigits c (List.mem_cons_of_mem d hc))
    · cases hc
  exact trim_of_ends (fun c hc => hspace c (List.mem_of_mem_head? hc)) fun c hc =>
    hspace c (List.mem_of_mem_getLast? hc)

/-- A sign at the front is taken off. -/
theorem signed_cases {text : Bytes} (hne : text ≠ []) :
    (∃ rest, text = Ch.minus :: rest ∧ signed text = (true, rest)) ∨
      (∃ rest, text = Ch.plus :: rest ∧ signed text = (false, rest)) ∨
        (text.head? ≠ some Ch.plus ∧ signed text = (false, text)) := by
  obtain ⟨c, rest, rfl⟩ := List.exists_cons_of_ne_nil hne
  rw [signed]
  by_cases hminus : c = Ch.minus
  · exact .inl ⟨rest, by rw [hminus], if_pos hminus⟩
  · rw [if_neg hminus]
    by_cases hplus : c = Ch.plus
    · exact .inr (.inl ⟨rest, by rw [hplus], if_pos hplus⟩)
    · exact .inr (.inr ⟨by simpa using hplus, if_neg hplus⟩)

/-- What the database reads, the intervals are made of. -/
theorem asInteger_of_readInt4 {v : Int} (hwhole : WholeNumber operand)
    (h : readInt4 operand = some v) : asInteger operand = some v := by
  obtain ⟨hlow, hhigh⟩ := readInt4_bounds h
  obtain ⟨-, -, hv, -⟩ := readInteger_some h
  rw [trim_whole hwhole] at hv
  have hfits : Json.Fits64 v := by
    unfold Json.Fits64
    omega
  unfold asInteger
  rcases signed_cases (operand_ne_nil hwhole) with ⟨rest, rfl, hsigned⟩ | ⟨rest, rfl, hsigned⟩ | ⟨hplus, hsigned⟩
  · unfold WholeNumber at hwhole
    simp only [hsigned, if_true] at hv hwhole
    have hplus : (Ch.minus :: rest).head? ≠ some Ch.plus := by
      simp only [List.head?_cons, ne_eq, Option.some.injEq]
      decide
    rw [if_neg hplus, Json.fromChars_minus hwhole.2 hwhole.1, ← hv, if_pos hfits]
  · unfold WholeNumber at hwhole
    simp only [hsigned, Bool.false_eq_true, if_false] at hv hwhole
    rw [if_pos List.head?_cons, List.tail_cons, Json.fromChars_digits hwhole.2 hwhole.1, ← hv, if_pos hfits]
  · unfold WholeNumber at hwhole
    simp only [hsigned, Bool.false_eq_true, if_false] at hv hwhole
    rw [if_neg hplus, Json.fromChars_digits hwhole.2 hwhole.1, ← hv, if_pos hfits]

section
variable {field : FieldDef} (hcounts : Counts field)
include hcounts

theorem compare_number (hwhole : WholeNumber operand) (n : Int) :
    (numberColumn n).compare (boundText field operand) = (readInt4 operand).map (Ord.compare n) := by
  have hmember : byMember field = false := by
    rcases hcounts with h | h <;> simp [byMember, h]
  have hcode : field.type ≠ .code := by
    rcases hcounts with h | h <;> simp [h]
  rw [boundText_plain hmember hcode (operand_ne_nil hwhole)]
  rfl

/-- The filter compares with the number that the database reads. -/
theorem orders_number {v : Int} (hwhole : WholeNumber operand)
    (hread : readInt4 operand = some v) (hlow : -2 ^ 63 ≤ n) (hhigh : n ≤ 2 ^ 63 - 1) :
    Orders (numberColumn n) field (intText n) operand := by
  have hcanonical : ∀ text, canonical text field = text := by
    intro text
    unfold canonical
    rcases hcounts with h | h <;> rw [h]
  have hstoll := stoll_of_readInteger hread (by decide) (by decide)
  unfold Orders
  rw [compare_number hcounts hwhole, hread, hcanonical, hcanonical]
  unfold order
  rcases hcounts with h | h <;> rw [h] <;> dsimp only <;> rw [stoll_intText hlow hhigh, hstoll] <;> rfl

/-! ### An atom -/

/-- The database reads every operand. -/
def Readable (atom : Atom) : Prop := ∀ operand ∈ atom.operands, (readInt4 operand).isSome

omit hcounts in
theorem numeric_counts (hcounts : Counts field) : numeric field = true := by
  unfold numeric
  rcases hcounts with h | h <;> rw [h]

theorem atomHolds_satisfies {atom : Atom} (hwhole : WholeAtom atom) (hreads : Readable atom)
    (hlow : -2 ^ 63 ≤ n) (hhigh : n ≤ 2 ^ 63 - 1) :
    atomHolds (numberColumn n) field atom = some (satisfies atom (intText n) field) := by
  have horders : ∀ operand ∈ atom.operands, Orders (numberColumn n) field (intText n) operand := by
    intro operand hoperand
    obtain ⟨v, hv⟩ := Option.isSome_iff_exists.mp (hreads operand hoperand)
    exact orders_number hcounts (hwhole.2 operand hoperand) hv hlow hhigh
  by_cases hequal : atom.compare = .equal ∨ atom.compare = .notEqual
  · apply atomHolds_of_equates hequal
    have hvalue : atom.value ∈ atom.operands := by
      unfold Atom.operands
      rcases hequal with h | h <;> rw [h] <;> exact List.mem_cons_self
    refine ⟨_, horders _ hvalue, ?_⟩
    rw [sameValue, if_pos (numeric_counts hcounts)]
  · exact atomHolds_of_orders hwhole.1 (not_or.mp hequal) horders

/-- A clause that says anything has read its operands. -/
theorem readable_of_holds {atom : Atom} (hwhole : WholeAtom atom)
    (h : (atomHolds (numberColumn n) field atom).isSome) : Readable atom := by
  obtain ⟨⟨hlike, hnotLike⟩, hnumbers⟩ := hwhole
  unfold Readable Atom.operands at *
  unfold atomHolds at h
  cases hcompare : atom.compare with
  | like => exact absurd hcompare hlike
  | notLike => exact absurd hcompare hnotLike
  | equal | notEqual | less | lessOrEqual | greater | greaterEqual =>
    simp only [hcompare] at h hnumbers
    rw [compare_number hcounts (hnumbers _ List.mem_cons_self), Option.isSome_map, Option.isSome_map] at h
    intro operand hoperand
    rw [List.mem_singleton.mp hoperand]
    exact h
  | between =>
    simp only [hcompare] at h hnumbers
    cases hlower : atom.openLower <;> cases hupper : atom.openUpper <;>
      simp only [hlower, hupper, Bool.and_true, Bool.and_false, Bool.false_eq_true, if_true, if_false,
        List.singleton_append, List.nil_append, List.append_nil] at h hnumbers ⊢
    · have hvalue := hnumbers atom.value List.mem_cons_self
      have hupper := hnumbers atom.upper (List.mem_cons_of_mem _ List.mem_cons_self)
      rw [compare_number hcounts hvalue, compare_number hcounts hupper] at h
      intro operand hoperand
      cases hv : readInt4 atom.value with
      | none => simp [hv] at h
      | some v =>
        cases hu : readInt4 atom.upper with
        | none => simp [hv, hu] at h
        | some u =>
          rcases List.mem_cons.mp hoperand with rfl | hoperand
          · rw [hv]
            rfl
          · rw [List.mem_singleton.mp hoperand, hu]
            rfl
    · rw [compare_number hcounts (hnumbers _ List.mem_cons_self), Option.isSome_map, Option.isSome_map] at h
      intro operand hoperand
      rw [List.mem_singleton.mp hoperand]
      exact h
    · rw [compare_number hcounts (hnumbers _ List.mem_cons_self), Option.isSome_map, Option.isSome_map] at h
      intro operand hoperand
      rw [List.mem_singleton.mp hoperand]
      exact h
    · intro operand hoperand
      cases hoperand

/-! ### The intervals of an atom -/

/-- The intervals of an atom have the numbers of the domain that the atom accepts. -/
def Admits (domain : Interval) (is : List Interval) (accepts : Int → Prop) : Prop :=
  Apart is ∧ ∀ n ∈ domain, Covers is n ↔ accepts n

omit hcounts in
theorem admits_normalised {domain : Interval} {set : List Interval} {accepts : Int → Prop}
    (h : ∀ n ∈ domain, Covers set n ↔ accepts n) : Admits domain (normalised set) accepts :=
  ⟨apart_normalised set, fun n hn => (covers_normalised set).trans (h n hn)⟩

/-! ### The intervals of a filter -/

section
variable {domain : Interval} {takes : Atom → Int → Prop}

omit hcounts in
theorem narrowed_admits {so : List Interval} (hapart : Apart so) (hwithin : ∀ n, Covers so n → n ∈ domain)
    {atoms : All} (h : ∀ atom ∈ atoms, ∃ is, admitted atom domain = some is ∧ Admits domain is (takes atom)) :
    ∃ is, narrowed domain so atoms = some is ∧ Apart is ∧
      ∀ n, Covers is n ↔ Covers so n ∧ ∀ atom ∈ atoms, takes atom n := by
  induction atoms generalizing so with
  | nil => exact ⟨so, rfl, hapart, fun n => by simp⟩
  | cons atom atoms ih =>
    obtain ⟨⟨one, hone, hadmits⟩, hatoms⟩ := List.forall_mem_cons.mp h
    have hboth : ∀ n, Covers (intersected so one) n ↔ Covers so n ∧ takes atom n := by
      intro n
      rw [covers_intersected hapart hadmits.1]
      exact and_congr_right fun hn => hadmits.2 n (hwithin n hn)
    obtain ⟨is, his, hapart', hcovers⟩ :=
      ih (apart_intersected hapart hadmits.1) (fun n hn => hwithin n ((hboth n).mp hn).1) hatoms
    refine ⟨is, ?_, hapart', fun n => ?_⟩
    · rw [narrowed, hone]
      exact his
    · rw [hcovers, hboth, List.forall_mem_cons, and_assoc]

omit hcounts in
/-- Where each atom admits the numbers it takes, a filter admits those that all atoms of a conjunction take. -/
theorem integerIntervals_admits (hfull : domain.low ≤ domain.high)
    (h : ∀ all ∈ expression, ∀ atom ∈ all, ∃ is, admitted atom domain = some is ∧ Admits domain is (takes atom)) :
    ∃ is, integerIntervals expression domain = some is ∧ Gapped is ∧
      ∀ n, Covers is n ↔ n ∈ domain ∧ (expression = [] ∨ ∃ all ∈ expression, ∀ atom ∈ all, takes atom n) := by
  have hdomain : Apart [domain] := Intervals.apart_singleton hfull
  unfold integerIntervals
  by_cases hnil : expression = []
  · rw [if_pos hnil]
    refine ⟨[domain], rfl, ⟨hdomain.full, List.pairwise_singleton _ _⟩, fun n => ?_⟩
    rw [covers_singleton, and_iff_left (.inl hnil)]
  · rw [if_neg hnil]
    have hlisted : ∀ {listed : Expression}, (∀ all ∈ listed, all ∈ expression) →
        ∃ iss, listed.mapM (narrowed domain [domain]) = some iss ∧
          ∀ n, Covers iss.flatten n ↔ n ∈ domain ∧ ∃ all ∈ listed, ∀ atom ∈ all, takes atom n := by
      intro listed hmem
      induction listed with
      | nil => exact ⟨[], rfl, fun n => iff_of_false not_covers_nil (by simp)⟩
      | cons all rest ih =>
        obtain ⟨hall, hrest⟩ := List.forall_mem_cons.mp hmem
        obtain ⟨iss, hiss, hcovers⟩ := ih hrest
        obtain ⟨is, his, -, hnarrowed⟩ := narrowed_admits hdomain (fun n hn => covers_singleton.mp hn) (h all hall)
        refine ⟨is :: iss, by rw [List.mapM_cons, his, hiss]; rfl, fun n => ?_⟩
        rw [List.flatten_cons, covers_append, hcovers, hnarrowed, covers_singleton, List.exists_mem_cons_iff,
            and_or_left]
    obtain ⟨iss, hiss, hcovers⟩ := hlisted fun _ h => h
    refine ⟨normalised iss.flatten, by rw [hiss]; rfl, gapped_normalised _, fun n => ?_⟩
    rw [covers_normalised, hcovers, or_iff_right hnil]

end

/-- The database reads every operand of a filter, and its conjunctions are conditions. -/
def ReadableAll (expression : Expression) : Prop :=
  ∀ all ∈ expression, all ≠ [] ∧ ∀ atom ∈ all, Readable atom

omit hcounts in
theorem matchesValue_iff {value : Bytes} : matchesValue expression value field = true ↔
      expression = [] ∨ ∃ all ∈ expression, ∀ atom ∈ all, satisfies atom value field = true := by
  simp [matchesValue]

/-! ### The clause of a filter -/

theorem clauseSays_number (hwhole : WholeNumbers expression)
    (hreads : ReadableAll expression) (hlow : -2 ^ 63 ≤ n) (hhigh : n ≤ 2 ^ 63 - 1) :
    clauseSays (numberColumn n) field expression = some (matchesValue expression (intText n) field) := by
  apply clauseSays_total fun all hall => (hreads all hall).1
  intro all hall atom hatom
  exact atomHolds_satisfies hcounts (hwhole all hall atom hatom) ((hreads all hall).2 atom hatom) hlow hhigh

omit hcounts in
theorem isSome_of_mapM {α β : Type} {f : α → Option β} {l : List α} (h : (l.mapM f).isSome) :
    ∀ x ∈ l, (f x).isSome := by
  induction l with
  | nil => exact fun x hx => absurd hx List.not_mem_nil
  | cons x rest ih =>
    rw [List.mapM_cons] at h
    cases hx : f x with
    | none => simp [hx] at h
    | some y =>
      cases hrest : rest.mapM f with
      | none => simp [hx, hrest] at h
      | some ys =>
        exact List.forall_mem_cons.mpr ⟨by rw [hx]; rfl, ih (by rw [hrest]; rfl)⟩

/-- A clause that says anything has been read. -/
theorem readable_of_some (hwhole : WholeNumbers expression)
    (h : (clauseSays (numberColumn n) field expression).isSome) : ReadableAll expression := by
  unfold clauseSays at h
  intro all hall
  rw [if_neg (List.ne_nil_of_mem hall), Option.isSome_map] at h
  have hsays := isSome_of_mapM h all hall
  unfold allSays at hsays
  by_cases hnil : all = []
  · rw [if_pos hnil] at hsays
    cases hsays
  · rw [if_neg hnil, Option.isSome_map] at hsays
    exact ⟨hnil, fun atom hatom =>
      readable_of_holds hcounts (hwhole all hall atom hatom) (isSome_of_mapM hsays atom hatom)⟩

end

end Agiru.Series
