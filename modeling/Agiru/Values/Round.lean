import Agiru.Values.Division

/-! `Round`: the multiples of a precision.

The multiples are counted in the quotient, of which only so many places are kept; and the multiple that was
chosen has to be a decimal. Where the quotient is carried past the number at which the count changes, another
multiple is answered (`round_right_iff`). -/
namespace Agiru
open Rounding

inductive RoundDirection
  | nearest | up | down
  deriving Repr, DecidableEq

namespace Decimal

/-- `Abs`. -/
def abs (d : Decimal) : Decimal := ⟨d.units, d.scale, false, d.fits, d.places, by simp⟩

/-- `TruncateMagnitude`. -/
def truncateMagnitude (d : Decimal) : Decimal :=
  ⟨d.units / 10 ^ d.scale, 0, false, (Nat.div_le_self _ _).trans d.fits, Nat.zero_le _, by simp⟩

/-- `kHalf`. -/
def half : Decimal := ⟨5, 1, false, by decide, by decide, by decide⟩

/-- The steps of the quotient, with one more where the direction asks for it. -/
def roundSteps (direction : RoundDirection) (steps fraction : Decimal) : Except DecimalError Decimal :=
  match direction with
  | .nearest => if fraction.compare half ≠ .lt then steps.plus one else .ok steps
  | .up => if fraction.units ≠ 0 then steps.plus one else .ok steps
  | .down => .ok steps

/-- `Round`. -/
def round (number precision : Decimal) (direction : RoundDirection) : Except DecimalError Decimal :=
  if precision.units = 0 then .error .noPrecision
  else if precision.negative then .error .negativePrecision
  else do
    let quotient ← number.abs.divide precision
    let fraction ← quotient.minus quotient.truncateMagnitude
    let steps ← roundSteps direction quotient.truncateMagnitude fraction
    let result ← steps.times precision
    return if number.negative then result.neg else result

end Decimal

/-! ### The right multiple -/

namespace RoundDirection

/-- How many times a precision goes into a magnitude, in a direction. -/
def Counts (direction : RoundDirection) (magnitude precision : ℚ) (k : ℤ) : Prop :=
  match direction with
  | .nearest => (2 * k - 1) * precision ≤ 2 * magnitude ∧ 2 * magnitude < (2 * k + 1) * precision
  | .up => magnitude ≤ k * precision ∧ (k - 1) * precision < magnitude
  | .down => k * precision ≤ magnitude ∧ magnitude < (k + 1) * precision

/-- The steps of a quotient. -/
def steps (direction : RoundDirection) (x : ℚ) : ℤ :=
  match direction with
  | .nearest => ⌊x + 1 / 2⌋
  | .up => ⌈x⌉
  | .down => ⌊x⌋

/-- Rounded to so many places, the quotient is not carried past a number at which the steps change: the next whole
number, where steps are counted down; the whole number below it, where they are counted up; the half between the
two, where the nearest is counted. -/
def Clear (direction : RoundDirection) (x : ℚ) (places : ℕ) : Prop :=
  match direction with
  | .nearest => 1 / 2 ≤ Int.fract x ↔ Reaches (x * 10 ^ places) (⌊x⌋ * 10 ^ places + (10 ^ places + 1) / 2)
  | .up => Int.fract x = 0 ∨ Reaches (x * 10 ^ places) (⌊x⌋ * 10 ^ places + 1)
  | .down => ¬ Reaches (x * 10 ^ places) ((⌊x⌋ + 1) * 10 ^ places)

theorem steps_nonneg (direction : RoundDirection) {x : ℚ} (hx : 0 ≤ x) : 0 ≤ direction.steps x := by
  cases direction with
  | nearest => exact Int.floor_nonneg.mpr (by linarith)
  | up => exact Int.ceil_nonneg hx
  | down => exact Int.floor_nonneg.mpr hx

theorem counts_iff (direction : RoundDirection) {magnitude precision : ℚ} (h : 0 < precision) (k : ℤ) :
    direction.Counts magnitude precision k ↔ k = direction.steps (magnitude / precision) := by
  cases direction with
  | nearest =>
    rw [steps, eq_comm, Int.floor_eq_iff, Counts, ← sub_le_iff_le_add, ← lt_sub_iff_add_lt, le_div_iff₀ h, div_lt_iff₀ h]
    constructor <;> intro hbounds <;> constructor <;> linarith [hbounds.1, hbounds.2]
  | up =>
    rw [steps, eq_comm, Int.ceil_eq_iff, Counts, lt_div_iff₀ h, div_le_iff₀ h, and_comm]
  | down =>
    rw [steps, eq_comm, Int.floor_eq_iff, Counts, le_div_iff₀ h, div_lt_iff₀ h]

section
variable {x : ℚ} {places : ℕ}

/-- A number and what it is rounded to lie between the same whole numbers. -/
theorem kept_bounds (x : ℚ) (places : ℕ) : ⌊x⌋ * 10 ^ places ≤ halfEven (x * 10 ^ places) ∧
    halfEven (x * 10 ^ places) ≤ (⌊x⌋ + 1) * 10 ^ places := by
  have hten : (0 : ℚ) ≤ 10 ^ places := by positivity
  constructor
  · have hle : ((⌊x⌋ * 10 ^ places : ℤ) : ℚ) ≤ x * 10 ^ places := by
      push_cast
      exact mul_le_mul_of_nonneg_right (Int.floor_le x) hten
    have hround := halfEven_mono hle
    rwa [halfEven_intCast] at hround
  · have hle : x * 10 ^ places ≤ (((⌊x⌋ + 1) * 10 ^ places : ℤ) : ℚ) := by
      push_cast
      exact mul_le_mul_of_nonneg_right (Int.lt_floor_add_one x).le hten
    have hround := halfEven_mono hle
    rwa [halfEven_intCast] at hround

/-- The number that a quotient is kept as. -/
def kept (x : ℚ) (places : ℕ) : ℚ := halfEven (x * 10 ^ places) / 10 ^ places

theorem floor_kept : ⌊kept x places⌋ = if Reaches (x * 10 ^ places) ((⌊x⌋ + 1) * 10 ^ places) then ⌊x⌋ + 1 else ⌊x⌋ := by
  have hten : (0 : ℚ) < 10 ^ places := by positivity
  obtain ⟨hlow, hhigh⟩ := kept_bounds x places
  unfold kept
  split
  · next hreaches =>
    rw [← le_halfEven_iff] at hreaches
    have hsame : halfEven (x * 10 ^ places) = (⌊x⌋ + 1) * 10 ^ places := le_antisymm hhigh hreaches
    rw [hsame]
    push_cast
    rw [mul_div_cancel_right₀ _ hten.ne', Int.floor_add_one, Int.floor_intCast]
  · next hbelow =>
    rw [← le_halfEven_iff] at hbelow
    rw [Int.floor_eq_iff, le_div_iff₀ hten, div_lt_iff₀ hten]
    have hless := not_le.mp hbelow
    exact ⟨by exact_mod_cast hlow, by exact_mod_cast hless⟩

theorem ceil_kept : ⌈kept x places⌉ = if Reaches (x * 10 ^ places) (⌊x⌋ * 10 ^ places + 1) then ⌊x⌋ + 1 else ⌊x⌋ := by
  have hten : (0 : ℚ) < 10 ^ places := by positivity
  obtain ⟨hlow, hhigh⟩ := kept_bounds x places
  unfold kept
  split
  · next hreaches =>
    rw [← le_halfEven_iff] at hreaches
    rw [Int.ceil_eq_iff, lt_div_iff₀ hten, div_le_iff₀ hten]
    push_cast
    rw [add_sub_cancel_right]
    have hless : ⌊x⌋ * 10 ^ places < halfEven (x * 10 ^ places) := hreaches
    exact ⟨by exact_mod_cast hless, by exact_mod_cast hhigh⟩
  · next hbelow =>
    rw [← le_halfEven_iff] at hbelow
    have hsame : halfEven (x * 10 ^ places) = ⌊x⌋ * 10 ^ places := by omega
    rw [hsame]
    push_cast
    rw [mul_div_cancel_right₀ _ hten.ne', Int.ceil_intCast]

theorem nearest_kept : ⌊kept x places + 1 / 2⌋ =
    if Reaches (x * 10 ^ places) (⌊x⌋ * 10 ^ places + (10 ^ places + 1) / 2) then ⌊x⌋ + 1 else ⌊x⌋ := by
  have hten : (0 : ℚ) < 10 ^ places := by positivity
  obtain ⟨hlow, hhigh⟩ := kept_bounds x places
  have hhalf : ∀ n : ℤ, ⌊x⌋ * 10 ^ places + (10 ^ places + 1) / 2 ≤ n ↔ (2 * ⌊x⌋ + 1) * 10 ^ places ≤ 2 * n := by
    intro n
    have hsum : (2 * ⌊x⌋ + 1) * 10 ^ places = 2 * (⌊x⌋ * 10 ^ places) + 10 ^ places := by ring
    omega
  unfold kept
  split
  · next hreaches =>
    rw [← le_halfEven_iff, hhalf] at hreaches
    rw [Int.floor_eq_iff, ← sub_le_iff_le_add, ← lt_sub_iff_add_lt, le_div_iff₀ hten, div_lt_iff₀ hten]
    have hlow' : ((2 * ⌊x⌋ + 1 : ℤ) : ℚ) * 10 ^ places ≤ 2 * halfEven (x * 10 ^ places) := by exact_mod_cast hreaches
    have hhigh' : (halfEven (x * 10 ^ places) : ℚ) ≤ (⌊x⌋ + 1) * 10 ^ places := by exact_mod_cast hhigh
    push_cast at hlow' ⊢
    constructor <;> linarith
  · next hbelow =>
    rw [← le_halfEven_iff, hhalf] at hbelow
    rw [Int.floor_eq_iff, ← sub_le_iff_le_add, ← lt_sub_iff_add_lt, le_div_iff₀ hten, div_lt_iff₀ hten]
    have hlow' : (⌊x⌋ : ℚ) * 10 ^ places ≤ halfEven (x * 10 ^ places) := by exact_mod_cast hlow
    have hhigh' : 2 * (halfEven (x * 10 ^ places) : ℚ) < ((2 * ⌊x⌋ + 1 : ℤ) : ℚ) * 10 ^ places := by
      exact_mod_cast not_le.mp hbelow
    push_cast at hhigh' ⊢
    constructor <;> linarith

/-- The steps of a quotient as it is kept. -/
theorem steps_kept (direction : RoundDirection) : direction.steps (kept x places) = ⌊x⌋ ∨
    direction.steps (kept x places) = ⌊x⌋ + 1 := by
  cases direction with
  | nearest =>
    rw [steps, nearest_kept]
    exact (ite_eq_or_eq _ _ _).symm
  | up =>
    rw [steps, ceil_kept]
    exact (ite_eq_or_eq _ _ _).symm
  | down =>
    rw [steps, floor_kept]
    exact (ite_eq_or_eq _ _ _).symm

theorem steps_eq (direction : RoundDirection) (x : ℚ) : direction.steps x =
    match direction with
    | .nearest => if 1 / 2 ≤ Int.fract x then ⌊x⌋ + 1 else ⌊x⌋
    | .up => if Int.fract x = 0 then ⌊x⌋ else ⌊x⌋ + 1
    | .down => ⌊x⌋ := by
  have hlow := Int.fract_nonneg x
  have hhigh := Int.fract_lt_one x
  have hsum := Int.floor_add_fract x
  cases direction with
  | nearest =>
    show ⌊x + 1 / 2⌋ = _
    dsimp only
    split
    · rw [Int.floor_eq_iff]
      push_cast
      constructor <;> linarith
    · rw [Int.floor_eq_iff]
      constructor <;> linarith
  | up =>
    show ⌈x⌉ = _
    dsimp only
    split
    · rw [Int.ceil_eq_iff]
      constructor <;> linarith
    · next hfract =>
      have hpos := lt_of_le_of_ne hlow (Ne.symm hfract)
      rw [Int.ceil_eq_iff]
      push_cast
      constructor <;> linarith
  | down => rfl

/-- A whole quotient is kept as it is. -/
theorem kept_whole (h : Int.fract x = 0) : kept x places = x := by
  have hten : (10 : ℚ) ^ places ≠ 0 := pow_ne_zero _ (by norm_num)
  obtain ⟨n, rfl⟩ : ∃ n : ℤ, x = n := ⟨⌊x⌋, by linarith [Int.floor_add_fract x]⟩
  have hwhole : (n : ℚ) * 10 ^ places = ((n * 10 ^ places : ℤ) : ℚ) := by push_cast; rfl
  rw [kept, hwhole, halfEven_intCast, ← hwhole, mul_div_cancel_right₀ _ hten]

/-- The steps are right exactly where the quotient is not carried past their change. -/
theorem clear_iff (direction : RoundDirection) :
    direction.Clear x places ↔ direction.steps (kept x places) = direction.steps x := by
  rw [steps_eq direction x]
  cases direction with
  | nearest =>
    rw [steps, nearest_kept, Clear]
    dsimp only
    split <;> split <;> simp_all
  | up =>
    rw [steps, ceil_kept, Clear]
    dsimp only
    by_cases hfract : Int.fract x = 0
    · have hbelow : ¬ Reaches (x * 10 ^ places) (⌊x⌋ * 10 ^ places + 1) := by
        have hceil := @ceil_kept x places
        rw [kept_whole hfract] at hceil
        intro hreaches
        rw [if_pos hreaches, Int.ceil_eq_iff] at hceil
        have := Int.floor_add_fract x
        push_cast at hceil
        linarith [hceil.1]
      rw [if_neg hbelow, if_pos hfract]
      exact iff_of_true (.inl hfract) rfl
    · rw [if_neg hfract, or_iff_right hfract]
      split
      · next hreaches => exact iff_of_true hreaches rfl
      · next hbelow => exact iff_of_false hbelow (by omega)
  | down =>
    rw [steps, floor_kept, Clear]
    dsimp only
    split
    · next hreaches => exact iff_of_false (not_not.mpr hreaches) (by omega)
    · next hbelow => exact iff_of_true hbelow rfl

/-- Where they are wrong, the quotient is between the two counts. -/
theorem between_of_ne (direction : RoundDirection) (h : direction.steps (kept x places) ≠ direction.steps x) :
    ((direction.steps x : ℚ) < x ∧ x < direction.steps (kept x places)) ∨
      ((direction.steps (kept x places) : ℚ) < x ∧ x < direction.steps x) := by
  have hfract : Int.fract x ≠ 0 := by
    intro hwhole
    exact h (by rw [kept_whole hwhole])
  have hlow : (⌊x⌋ : ℚ) < x := by
    have := lt_of_le_of_ne (Int.fract_nonneg x) (Ne.symm hfract)
    linarith [Int.floor_add_fract x]
  have hhigh : x < ((⌊x⌋ + 1 : ℤ) : ℚ) := by
    push_cast
    exact Int.lt_floor_add_one x
  have hright : direction.steps x = ⌊x⌋ ∨ direction.steps x = ⌊x⌋ + 1 := by
    rw [steps_eq]
    cases direction with
    | nearest => exact (ite_eq_or_eq _ _ _).symm
    | up => exact ite_eq_or_eq _ _ _
    | down => exact .inl rfl
  rcases @steps_kept x places direction with hkept | hkept <;> rcases hright with heq | heq <;>
    rw [hkept, heq] at h ⊢
  · exact absurd rfl h
  · exact .inr ⟨hlow, hhigh⟩
  · exact .inl ⟨hlow, hhigh⟩
  · exact absurd rfl h

end
end RoundDirection

namespace Decimal

/-! ### What `Round` computes -/

theorem abs_rational_eq (d : Decimal) : d.abs.rational = |d.rational| := by
  rw [rational_signed, d.abs_rational]
  show sign false * (d.units / 10 ^ d.scale) = _
  rw [sign, if_neg Bool.false_ne_true, one_mul]

/-- An operation whose exact result fits as it is answers it. -/
theorem roundsOnce_exact {x : ℚ} {natural : Nat} {result : Except DecimalError Decimal} (h : RoundsOnce x natural result)
    {n : ℤ} (hn : x * 10 ^ natural = n) (hfits : |n| ≤ (maxUnits : ℤ)) (hplaces : natural ≤ maxScale) :
    ∃ d, result = .ok d ∧ d.rational = x ∧ d.scale = natural := by
  have hnatural : Fits x natural := by
    rw [Fits, hn, halfEven_intCast]
    exact hfits
  cases result with
  | error e => exact absurd (hnatural.mono (Nat.zero_le _)) h.2
  | ok d =>
    obtain ⟨-, -, hscale, hgreatest, hrational⟩ := h
    have hsame : d.scale = natural := by
      by_contra hne
      exact hgreatest natural (Nat.lt_of_le_of_ne hscale hne) le_rfl hplaces hnatural
    refine ⟨d, rfl, ?_, hsame⟩
    rw [hrational, hsame, hn, halfEven_intCast, ← hn, mul_div_cancel_right₀ _ (pow_ne_zero _ (by norm_num))]

/-- The whole part of a quotient and what is behind its point. -/
theorem truncate_minus {q : Decimal} (hq : 0 ≤ q.rational) :
    q.truncateMagnitude.rational = ⌊q.rational⌋ ∧
      ∃ fraction, q.minus q.truncateMagnitude = .ok fraction ∧ fraction.rational = Int.fract q.rational := by
  have hten : (0 : ℚ) < 10 ^ q.scale := by positivity
  have hvalue : q.rational = q.units / 10 ^ q.scale := by rw [← q.abs_rational, abs_of_nonneg hq]
  have hfloor : ⌊q.rational⌋ = ((q.units / 10 ^ q.scale : ℕ) : ℤ) := by
    rw [hvalue, Int.floor_eq_iff, le_div_iff₀ hten, div_lt_iff₀ hten]
    have hlow := Nat.div_mul_le_self q.units (10 ^ q.scale)
    have hless : q.units < (q.units / 10 ^ q.scale + 1) * 10 ^ q.scale :=
      Nat.lt_mul_of_div_lt (Nat.lt_succ_self _) (Nat.pow_pos (by decide))
    exact ⟨by exact_mod_cast hlow, by exact_mod_cast hless⟩
  have htruncated : q.truncateMagnitude.rational = ⌊q.rational⌋ := by
    rw [rational_signed, hfloor]
    show sign false * (((q.units / 10 ^ q.scale : ℕ) : ℚ) / 10 ^ 0) = _
    rw [sign, if_neg Bool.false_ne_true, one_mul, pow_zero, div_one, Int.cast_natCast]
  have hrounds := add_roundsOnce q q.truncateMagnitude.neg
  rw [neg_rational, htruncated, ← sub_eq_add_neg, Int.self_sub_floor,
    show max q.scale q.truncateMagnitude.neg.scale = q.scale from max_eq_left (Nat.zero_le _)] at hrounds
  have hrest : Int.fract q.rational * 10 ^ q.scale = ((q.units % 10 ^ q.scale : ℕ) : ℤ) := by
    have hdivision : (q.units : ℚ) = (q.units / 10 ^ q.scale : ℕ) * 10 ^ q.scale + (q.units % 10 ^ q.scale : ℕ) := by
      exact_mod_cast (Nat.div_add_mod' q.units (10 ^ q.scale)).symm
    rw [← Int.self_sub_floor, hfloor, hvalue, sub_mul, div_mul_cancel₀ _ hten.ne', Int.cast_natCast, Int.cast_natCast]
    linarith
  have hless : |((q.units % 10 ^ q.scale : ℕ) : ℤ)| ≤ (maxUnits : ℤ) := by
    rw [Nat.abs_cast]
    exact_mod_cast (Nat.mod_le _ _).trans q.fits
  obtain ⟨fraction, hfraction, hrational, -⟩ := roundsOnce_exact hrounds hrest hless q.places
  rw [← plus_eq] at hfraction
  exact ⟨htruncated, fraction, hfraction, hrational⟩

/-- One step more. -/
theorem plus_one {steps result : Decimal} (hscale : steps.scale = 0) (h : steps.plus one = .ok result) :
    result.rational = steps.rational + 1 ∧ result.scale = 0 := by
  have hone : one.rational = 1 := by
    rw [rational_signed]
    norm_num [one, sign]
  have hrounds := add_roundsOnce steps one
  rw [plus_eq] at h
  rw [h, hone, hscale] at hrounds
  obtain ⟨-, -, hplaces, -, hrational⟩ := hrounds
  have hnone : result.scale = 0 := Nat.le_zero.mp hplaces
  obtain ⟨n, hn⟩ : ∃ n : ℤ, steps.rational + 1 = n := by
    refine ⟨(if steps.negative then -1 else 1) * steps.units + 1, ?_⟩
    rw [rational_signed, hscale]
    cases steps.negative <;> simp [sign]
  rw [hnone, pow_zero, mul_one, div_one, hn, halfEven_intCast] at hrational
  exact ⟨hrational.trans hn.symm, hnone⟩

/-- The steps that are chosen are the quotient's. -/
theorem roundSteps_eq {direction : RoundDirection} {q steps fraction result : Decimal}
    (hsteps : steps.rational = ⌊q.rational⌋) (hscale : steps.scale = 0)
    (hfraction : fraction.rational = Int.fract q.rational) (h : roundSteps direction steps fraction = .ok result) :
    result.rational = direction.steps q.rational ∧ result.scale = 0 := by
  rw [RoundDirection.steps_eq]
  unfold roundSteps at h
  cases direction with
  | nearest =>
    have hhalf : half.rational = 1 / 2 := by
      rw [rational_signed]
      norm_num [half, sign]
    have hcompare : fraction.compare half ≠ .lt ↔ 1 / 2 ≤ Int.fract q.rational := by
      rw [compare_rational, hhalf, hfraction, ne_eq, cmp_eq_lt_iff, not_lt]
    dsimp only at h ⊢
    split at h
    · next hmore =>
      obtain ⟨hrational, hnone⟩ := plus_one hscale h
      rw [if_pos (hcompare.mp hmore), hrational, hsteps]
      exact ⟨by push_cast; rfl, hnone⟩
    · next hless =>
      cases h
      rw [if_neg (mt hcompare.mpr hless)]
      exact ⟨hsteps, hscale⟩
  | up =>
    have hzero : fraction.units = 0 ↔ Int.fract q.rational = 0 := by
      rw [← hfraction, ← abs_eq_zero, fraction.abs_rational, div_eq_zero_iff, Nat.cast_eq_zero,
        or_iff_left (pow_ne_zero _ (by norm_num))]
    dsimp only at h ⊢
    split at h
    · next hmore =>
      obtain ⟨hrational, hnone⟩ := plus_one hscale h
      rw [if_neg (mt hzero.mpr hmore), hrational, hsteps]
      exact ⟨by push_cast; rfl, hnone⟩
    · next hwhole =>
      cases h
      rw [if_pos (hzero.mp (not_not.mp hwhole))]
      exact ⟨hsteps, hscale⟩
  | down =>
    cases h
    exact ⟨hsteps, hscale⟩

/-- A multiple is the product, rounded once to the places of the precision. -/
theorem times_largest {steps p result : Decimal} (hscale : steps.scale = 0) (h : steps.times p = .ok result) :
    ∃ scale, Largest (steps.rational * p.rational) p.scale scale ∧
      result.rational = halfEven (steps.rational * p.rational * 10 ^ scale) / 10 ^ scale := by
  by_cases hshort : Shortened steps p
  · rw [(times_eq steps p).1 hshort] at h
    cases h
    have hzero : steps.rational * p.rational = 0 := by
      have hnone : steps.units * p.units = 0 := by
        rcases hshort with ⟨-, -, hplaces⟩ | ⟨-, hnone⟩
        · have hmax : p.scale ≤ 28 := p.places
          omega
        · exact hnone
      rw [mul_rational, hnone]
      simp
    have hzeroFits : Fits (steps.rational * p.rational) 0 := by
      rw [Fits, hzero, zero_mul, halfEven_zero]
      simp
    obtain ⟨scale, hlargest⟩ := exists_largest p.scale hzeroFits
    refine ⟨scale, hlargest, ?_⟩
    rw [hzero, zero_mul, halfEven_zero, rational_signed]
    simp [zero]
  · have hrounds := roundsOnce_make (mul_rational steps p)
    rw [← (times_eq steps p).2 hshort, h, hscale, Nat.zero_add] at hrounds
    obtain ⟨-, hfits, hnatural, hgreatest, hrational⟩ := hrounds
    exact ⟨result.scale, ⟨hnatural, result.places, hfits, hgreatest⟩, hrational⟩

/-- What `Round` answers: as many steps as the quotient kept has, times the precision. -/
theorem round_value {number p : Decimal} {direction : RoundDirection} {d : Decimal} (hp : 0 < p.rational)
    (h : number.round p direction = .ok d) :
    ∃ places scale, Largest (|number.rational| / p.rational) maxScale places ∧
      Largest (direction.steps (RoundDirection.kept (|number.rational| / p.rational) places) * p.rational) p.scale scale ∧
      d.rational = sign number.negative *
        (halfEven (direction.steps (RoundDirection.kept (|number.rational| / p.rational) places) * p.rational * 10 ^ scale)
          / 10 ^ scale) := by
  have hunits : p.units ≠ 0 := by
    intro hzero
    rw [rational_signed, hzero] at hp
    simp at hp
  have hpositive : p.negative = false := by
    by_contra hnegative
    rw [Bool.not_eq_false] at hnegative
    rw [rational_signed, hnegative, sign, if_pos rfl, neg_one_mul, Left.neg_pos_iff] at hp
    exact absurd hp (not_lt.mpr (by positivity))
  rw [round, if_neg hunits, if_neg (by rw [hpositive]; exact Bool.false_ne_true)] at h
  obtain ⟨q, hq, h⟩ := Fallible.of_bind h
  obtain ⟨-, places, hlargest, hkept⟩ := divide_largest (a := number.abs) hunits hq
  rw [abs_rational_eq] at hlargest hkept
  have hnonneg : 0 ≤ q.rational := by
    have hquotient : 0 ≤ |number.rational| / p.rational := div_nonneg (abs_nonneg _) hp.le
    rw [hkept]
    exact div_nonneg (by exact_mod_cast halfEven_nonneg (mul_nonneg hquotient (by positivity))) (by positivity)
  obtain ⟨hsteps, fraction, hfraction, hfract⟩ := truncate_minus hnonneg
  rw [Fallible.bind_ok hfraction] at h
  obtain ⟨steps, hround, h⟩ := Fallible.of_bind h
  obtain ⟨result, htimes, h⟩ := Fallible.of_bind h
  obtain ⟨hcount, hscale⟩ := roundSteps_eq hsteps rfl hfract hround
  obtain ⟨scale, hproduct, hresult⟩ := times_largest hscale htimes
  have hkept' : q.rational = RoundDirection.kept (|number.rational| / p.rational) places := hkept
  rw [hcount, hkept'] at hproduct hresult
  refine ⟨places, scale, hlargest, hproduct, ?_⟩
  rw [← Except.ok.inj h]
  cases number.negative with
  | false =>
    rw [if_neg Bool.false_ne_true, hresult, sign, if_neg Bool.false_ne_true, one_mul]
  | true =>
    rw [if_pos rfl, neg_rational, hresult, sign, if_pos rfl, neg_one_mul]


/-- The units of a decimal at a scale it has no digit behind. -/
theorem rational_whole {a : Decimal} {scale : Nat} (h : a.scale ≤ scale) :
    ∃ n : ℤ, a.rational * 10 ^ scale = n := by
  refine ⟨(if a.negative then -1 else 1) * (a.units * 10 ^ (scale - a.scale)), ?_⟩
  have hten : (10 : ℚ) ^ a.scale ≠ 0 := pow_ne_zero _ (by norm_num)
  have hsplit : (10 : ℚ) ^ scale = 10 ^ a.scale * 10 ^ (scale - a.scale) := by rw [← pow_add, Nat.add_sub_cancel' h]
  have hvalue : a.rational * 10 ^ scale = sign a.negative * (a.units * 10 ^ (scale - a.scale)) := by
    rw [rational_signed, hsplit, mul_assoc, div_mul_eq_mul_div, ← mul_assoc (a.units : ℚ), mul_right_comm,
      mul_div_cancel_right₀ _ hten]
  rw [hvalue]
  cases a.negative <;> simp [sign]

theorem rational_fits (a : Decimal) : Fits a.rational a.scale := by
  have hten : (10 : ℚ) ^ a.scale ≠ 0 := pow_ne_zero _ (by norm_num)
  have hunits : |a.rational| * 10 ^ a.scale = ((a.units : ℤ) : ℚ) := by
    rw [a.abs_rational, div_mul_cancel₀ _ hten, Int.cast_natCast]
  rw [fits_iff, hunits, halfEven_intCast]
  exact_mod_cast a.fits

/-- A multiple that is a decimal is answered as it is. -/
theorem multiple_exact {k : ℤ} {p e : Decimal} {scale : Nat} (he : e.rational = k * p.rational)
    (h : Largest (k * p.rational) p.scale scale) :
    (halfEven (k * p.rational * 10 ^ scale) : ℚ) / 10 ^ scale = k * p.rational := by
  rcases Nat.le_total e.scale p.scale with hle | hle
  · obtain ⟨n, hn⟩ := e.rational_whole le_rfl
    rw [he] at hn
    exact h.exact hn (he ▸ e.rational_fits) hle e.places
  · obtain ⟨n, hn⟩ := p.rational_whole le_rfl
    have hmultiple : k * p.rational * 10 ^ p.scale = ((k * n : ℤ) : ℚ) := by
      rw [mul_assoc, hn, Int.cast_mul]
    exact h.exact hmultiple ((he ▸ e.rational_fits).mono hle) le_rfl p.places

/-- A multiple that is not right does not come out as the right one: a number between the two has no more places
than the result, and the result is the whole number nearest to the multiple there. -/
theorem multiple_apart {number p : Decimal} {k k' : ℤ} {scale : Nat} (hp : 0 < p.rational) (hnonneg : 0 ≤ k')
    (h : Largest (k' * p.rational) p.scale scale)
    (hresult : (halfEven (k' * p.rational * 10 ^ scale) : ℚ) / 10 ^ scale = k * p.rational)
    (hbetween : ((k : ℚ) * p.rational < |number.rational| ∧ |number.rational| < k' * p.rational) ∨
      ((k' : ℚ) * p.rational < |number.rational| ∧ |number.rational| < k * p.rational)) : False := by
  have hten : (0 : ℚ) < 10 ^ scale := by positivity
  rw [div_eq_iff hten.ne'] at hresult
  rcases Nat.lt_or_ge scale p.scale with hless | hge
  · -- at one place more the multiple does not fit
    have hgreat := h.greatest (scale + 1) (Nat.lt_succ_self _) hless (hless.trans_le p.places)
    rw [fits_iff, not_le, abs_of_nonneg (mul_nonneg (by exact_mod_cast hnonneg) hp.le), Int.lt_iff_add_one_le,
      le_halfEven_iff] at hgreat
    have hmore : ((maxUnits : ℤ) + 1 : ℤ) ≤ k' * p.rational * 10 ^ (scale + 1) + 1 / 2 := by
      rcases hgreat with hgreat | ⟨hgreat, -⟩
      · exact hgreat.le
      · exact hgreat.le
    rw [pow_succ] at hmore
    obtain ⟨m, hmax⟩ : ∃ m : ℤ, (maxUnits : ℤ) = 10 * m + 5 := ⟨maxUnits / 10, by decide⟩
    rw [hmax] at hmore
    push_cast at hmore
    have hstep : m + 1 ≤ halfEven (k' * p.rational * 10 ^ scale) := by
      rw [le_halfEven_iff]
      left
      push_cast
      linarith
    have hstep' : (m + 1 : ℚ) ≤ halfEven (k' * p.rational * 10 ^ scale) := by exact_mod_cast hstep
    rw [hresult] at hstep'
    have hover : (m : ℚ) + 11 / 20 < |number.rational| * 10 ^ scale := by
      rcases hbetween with ⟨hlow, -⟩ | ⟨hlow, -⟩
      · linarith [mul_lt_mul_of_pos_right hlow hten]
      · linarith [mul_lt_mul_of_pos_right hlow hten]
    have hplaces : number.scale ≤ scale := by
      by_contra hdeep
      have hdeep' : scale + 1 ≤ number.scale := Nat.lt_of_not_le hdeep
      have hfits := (number.rational_fits).mono hdeep'
      rw [fits_iff, ← not_lt, Int.lt_iff_add_one_le, le_halfEven_iff] at hfits
      apply hfits
      left
      rw [hmax, pow_succ]
      push_cast
      linarith
    obtain ⟨n, hn⟩ := @rational_whole number.abs scale hplaces
    rw [abs_rational_eq] at hn
    have hnear := halfEven_nearest (k' * p.rational * 10 ^ scale)
    have hclose : |2 * (k' * p.rational * 10 ^ scale - halfEven (k' * p.rational * 10 ^ scale))| ≤ 1 := by
      rcases hnear with hnear | ⟨hnear, -⟩
      · exact hnear.le
      · exact hnear.le
    rw [abs_le] at hclose
    rcases hbetween with ⟨hlow, hhigh⟩ | ⟨hlow, hhigh⟩
    · have hlow' : (halfEven (k' * p.rational * 10 ^ scale) : ℚ) < n := by
        rw [hresult, ← hn]
        exact mul_lt_mul_of_pos_right hlow hten
      have hnext : (halfEven (k' * p.rational * 10 ^ scale) : ℚ) + 1 ≤ n := by exact_mod_cast hlow'
      have hhigh' := mul_lt_mul_of_pos_right hhigh hten
      rw [hn] at hhigh'
      linarith [hclose.1, hclose.2]
    · have hhigh' : (n : ℚ) < halfEven (k' * p.rational * 10 ^ scale) := by
        rw [hresult, ← hn]
        exact mul_lt_mul_of_pos_right hhigh hten
      have hnext : (n : ℚ) + 1 ≤ halfEven (k' * p.rational * 10 ^ scale) := by exact_mod_cast hhigh'
      have hlow' := mul_lt_mul_of_pos_right hlow hten
      rw [hn] at hlow'
      linarith [hclose.1, hclose.2]
  · -- with all places the multiple is a whole number of them
    obtain ⟨n, hn⟩ := p.rational_whole hge
    have hmultiple : k' * p.rational * 10 ^ scale = ((k' * n : ℤ) : ℚ) := by
      rw [mul_assoc, hn, Int.cast_mul]
    have hsame : (k' : ℚ) * p.rational = k * p.rational := by
      have hvalue := hresult
      rw [hmultiple, halfEven_intCast, ← hmultiple] at hvalue
      exact mul_right_cancel₀ hten.ne' hvalue
    rcases hbetween with ⟨hlow, hhigh⟩ | ⟨hlow, hhigh⟩
    · linarith
    · linarith

theorem sign_mul_inj {negative : Bool} {x y : ℚ} (h : sign negative * x = sign negative * y) : x = y := by
  cases negative with
  | false | true => simpa [sign] using h

/-- **When `Round` answers the right multiple.** The quotient, kept to the places that fit, must not be carried past
the number at which the count changes; and the multiple must be a decimal. -/
theorem round_right_iff {number p d : Decimal} {direction : RoundDirection} (hp : 0 < p.rational)
    (h : number.round p direction = .ok d) :
    (∃ k : ℤ, direction.Counts |number.rational| p.rational k ∧ d.rational = sign number.negative * (k * p.rational)) ↔
      (∃ places, Largest (|number.rational| / p.rational) maxScale places ∧
        direction.Clear (|number.rational| / p.rational) places) ∧
      ∃ (k : ℤ) (e : Decimal), direction.Counts |number.rational| p.rational k ∧ e.rational = k * p.rational := by
  obtain ⟨places, scale, hplaces, hscale, hvalue⟩ := round_value hp h
  have hkept : 0 ≤ RoundDirection.kept (|number.rational| / p.rational) places := by
    have hquotient : 0 ≤ |number.rational| / p.rational := div_nonneg (abs_nonneg _) hp.le
    exact div_nonneg (by exact_mod_cast halfEven_nonneg (mul_nonneg hquotient (by positivity))) (by positivity)
  constructor
  · rintro ⟨k, hcounts, hright⟩
    rw [hright] at hvalue
    have hsteps := (direction.counts_iff hp k).mp hcounts
    have hmultiple := sign_mul_inj hvalue
    refine ⟨⟨places, hplaces, ?_⟩, k, if number.negative then d.neg else d, hcounts, ?_⟩
    · rw [RoundDirection.clear_iff]
      by_contra hne
      refine @multiple_apart number p _ _ _ hp (direction.steps_nonneg hkept) hscale
          (hmultiple.symm.trans (by rw [hsteps])) ?_
      rcases direction.between_of_ne hne with ⟨hlow, hhigh⟩ | ⟨hlow, hhigh⟩
      · exact .inl ⟨(lt_div_iff₀ hp).mp hlow, (div_lt_iff₀ hp).mp hhigh⟩
      · exact .inr ⟨(lt_div_iff₀ hp).mp hlow, (div_lt_iff₀ hp).mp hhigh⟩
    · cases hnegative : number.negative with
      | false =>
        rw [hnegative, sign, if_neg Bool.false_ne_true, one_mul] at hright
        rw [if_neg Bool.false_ne_true, hright]
      | true =>
        rw [hnegative, sign, if_pos rfl, neg_one_mul] at hright
        rw [if_pos rfl, neg_rational, hright, neg_neg]
  · rintro ⟨⟨places', hplaces', hclear⟩, k, e, hcounts, he⟩
    cases hplaces.unique hplaces'
    have hsteps := (direction.counts_iff hp k).mp hcounts
    rw [RoundDirection.clear_iff] at hclear
    rw [hclear, ← hsteps] at hscale hvalue
    exact ⟨k, hcounts, by rw [hvalue, multiple_exact he hscale]⟩

/-- Five times the twenty-eighth power of ten. -/
def great : Decimal := ⟨50000000000000000000000000000, 0, false, by decide, zero.places, by decide⟩

def three : Decimal := ⟨3, 0, false, by decide, zero.places, by decide⟩

/-- The third of a number that has no room for a point is carried up, and the multiple below the number is above
it. -/
theorem round_down_above :
    ∃ d, great.round three .down = .ok d ∧ ¬ ∃ k : ℤ, RoundDirection.Counts .down |great.rational| three.rational k ∧
      d.rational = sign great.negative * (k * three.rational) := by
  have hexpand : expand three.units (great.abs.quotient three) = .ok (great.abs.quotient three) := by
    rw [expand, dif_pos (by decide), if_pos (by decide), if_neg (by decide)]
  have hdivide : great.abs.divide three =
      .ok ⟨16666666666666666666666666667, 0, false, by decide, by decide, by decide⟩ := by
    rw [divide_eq (by decide), hexpand]
    decide +kernel
  have hround : great.round three .down =
      .ok ⟨50000000000000000000000000001, 0, false, by decide, by decide, by decide⟩ := by
    rw [round, if_neg (by decide), if_neg (by decide), hdivide]
    decide +kernel
  refine ⟨_, hround, ?_⟩
  rintro ⟨k, ⟨hle, -⟩, hvalue⟩
  have hgreat : great.rational = 50000000000000000000000000000 := by
    rw [rational_signed]
    norm_num [great, sign]
  rw [hgreat, abs_of_pos (by norm_num)] at hle
  rw [rational_signed, show great.negative = false from rfl, sign, if_neg Bool.false_ne_true, one_mul, one_mul] at hvalue
  rw [← hvalue] at hle
  norm_num at hle

/-- A number that is a multiple of the precision. -/
theorem round_right_iff_three :
    ∃ d, three.round one .up = .ok d ∧
      ((∃ k : ℤ, RoundDirection.Counts .up |three.rational| one.rational k ∧
        d.rational = sign three.negative * (k * one.rational)) ↔
      (∃ places, Largest (|three.rational| / one.rational) maxScale places ∧
        RoundDirection.Clear .up (|three.rational| / one.rational) places) ∧
      ∃ (k : ℤ) (e : Decimal), RoundDirection.Counts .up |three.rational| one.rational k ∧
        e.rational = k * one.rational) := by
  have hpositive : (0 : ℚ) < one.rational := by
    rw [rational_signed]
    norm_num [one, sign]
  have hexpand : expand one.units (three.abs.quotient one) = .ok (three.abs.quotient one) := by
    rw [expand, dif_neg (by decide)]
  have hdivide : three.abs.divide one = .ok three := by
    rw [divide_eq (by decide), hexpand]
    decide +kernel
  have hround : three.round one .up = .ok three := by
    rw [round, if_neg (by decide), if_neg (by decide), hdivide]
    decide +kernel
  exact ⟨three, hround, round_right_iff hpositive hround⟩

end Decimal
end Agiru
