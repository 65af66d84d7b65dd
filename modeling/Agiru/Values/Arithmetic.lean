import Agiru.Library.Procedure
import Agiru.Library.Rounding
import Agiru.Values.Wide
import Mathlib.Data.Rat.Floor

/-! Sums, differences and products of decimals, on the limbs.

No step on the limbs overflows, so the sum is `Decimal.add`'s; and digits dropped one at a time, with
a last digit and a mark for the ones before it, round the exact result once. -/
namespace Agiru
open Rounding

variable {tail : RoundingTail}

/-! ### On the limbs -/

namespace U192

/-- `FitsMantissa`. -/
def fitsMantissa (value : U192) : Bool := value.fitsU128 && value.toU128 ≤ maxUnits

theorem fitsMantissa_iff {value : U192} : value.fitsMantissa = true ↔ value.toNat ≤ maxUnits := by
  have hmax : maxUnits < 2 ^ 128 := by decide
  rw [fitsMantissa, Bool.and_eq_true, fitsU128_iff, decide_eq_true_eq]
  constructor
  · rintro ⟨hless, hle⟩
    rwa [toU128_eq hless] at hle
  · intro hle
    have hless := Nat.lt_of_le_of_lt hle hmax
    exact ⟨hless, by rwa [toU128_eq hless]⟩

theorem toU128_le {value : U192} (h : value.fitsMantissa = true) : value.toU128 ≤ maxUnits := by
  rw [fitsMantissa, Bool.and_eq_true, decide_eq_true_eq] at h
  exact h.2

/-- The value rounded by its tail, where it fits before and after; the tail reads bit 0. -/
def fitted (value : U192) (scale : Nat) (tail : RoundingTail) : Option Magnitude :=
  if h : scale ≤ maxScale ∧ value.fitsMantissa then
    let rounded := if tail.increments value.low.toNat then value.increment else value
    if hfits : rounded.fitsMantissa then some ⟨rounded.toU128, scale, toU128_le hfits, h.1⟩ else none
  else none

/-- `FitToUnits`. -/
def fitToUnits (value : U192) (tail : RoundingTail) : Nat → Except DecimalError Magnitude
  | 0 =>
    match value.fitted 0 tail with
    | some m => .ok m
    | none => .error .overflow
  | scale + 1 =>
    match value.fitted (scale + 1) tail with
    | some m => .ok m
    | none =>
      let (quotient, digit) := value.divModSmall 10
      quotient.fitToUnits (tail.prepend digit) scale

/-- A loop of `Align`. -/
def raise (value : U192) : Nat → Except DecimalError U192
  | 0 => .ok value
  | count + 1 =>
    match value.timesTen with
    | some next => next.raise count
    | none => .error .aligning

end U192

namespace Decimal

/-- `Align`. -/
def alignWide (a b : Decimal) : Except DecimalError (U192 × U192) := do
  let left ← (U192.ofUnits a.units).raise (b.scale - a.scale)
  let right ← (U192.ofUnits b.units).raise (a.scale - b.scale)
  return (left, right)

/-- `operator+=`. -/
def plus (a b : Decimal) : Except DecimalError Decimal := do
  let (left, right) ← alignWide a b
  let (sum, negative) :=
    if a.negative = b.negative then (left.add right, a.negative)
    else if left.compare right ≠ .lt then (left.sub right, a.negative)
    else (right.sub left, b.negative)
  let m ← sum.fitToUnits {} (max a.scale b.scale)
  return make m negative

/-- `operator-`. -/
def neg (a : Decimal) : Decimal :=
  ⟨a.units, a.scale, a.units ≠ 0 && !a.negative, a.fits, a.places,
    fun h => of_decide_eq_true (Bool.and_eq_true_iff.mp h).1⟩

/-- `operator-=`. -/
def minus (a b : Decimal) : Except DecimalError Decimal := a.plus b.neg

/-- `MultipliedBy`, of the mantissas. -/
def product (a b : Decimal) : U192 := (U192.ofUnits a.units).multipliedBy b.units

/-- `operator*=`: small mantissas of many places, and a product that is zero, are zero without
places. -/
def times (a b : Decimal) : Except DecimalError Decimal :=
  let scale := a.scale + b.scale
  let small := a.units ≤ 2 ^ 32 - 1 && b.units ≤ 2 ^ 32 - 1
  if (small && maxScale + 19 < scale) || (!small && a.product b = {}) then .ok zero
  else do
    let m ← (a.product b).fitToUnits {} scale
    return make m (a.negative != b.negative)

end Decimal

/-! ### No step overflows -/

theorem U192.raise_eq {value : U192} {count : Nat} (h : value.toNat * 10 ^ count < 2 ^ 192) :
    ∃ out, value.raise count = .ok out ∧ out.toNat = value.toNat * 10 ^ count := by
  induction count generalizing value with
  | zero => exact ⟨value, rfl, by simp⟩
  | succ count ih =>
    have hnext : value.toNat * 10 * 10 ^ count < 2 ^ 192 := by
      rw [Nat.mul_assoc, ← Nat.pow_succ']
      exact h
    have hten : value.toNat * 10 < 2 ^ 192 :=
      Nat.lt_of_le_of_lt (Nat.le_mul_of_pos_right _ (Nat.pow_pos (by decide))) hnext
    obtain ⟨next, hsome, hvalue⟩ := U192.timesTen_eq.1 hten
    rw [← hvalue] at hnext
    obtain ⟨out, hout, hraised⟩ := ih hnext
    refine ⟨out, by rw [raise, hsome]; exact hout, ?_⟩
    rw [hraised, hvalue, Nat.mul_assoc, ← Nat.pow_succ']

theorem U192.fitted_eq (value : U192) (scale : Nat) (tail : RoundingTail) :
    value.fitted scale tail = Agiru.fitted value.toNat scale tail := by
  have hbit : tail.increments value.low.toNat = tail.increments value.toNat := by
    have hsame : value.low.toNat % 2 = value.toNat % 2 := by
      unfold toNat
      omega
    rw [RoundingTail.increments, RoundingTail.increments, hsame]
  have hmax : maxUnits + 1 < 2 ^ 128 := by decide
  unfold U192.fitted Agiru.fitted
  by_cases hfits : scale ≤ maxScale ∧ value.fitsMantissa = true
  · have hvalue := fitsMantissa_iff.mp hfits.2
    have hrounded : (if tail.increments value.low.toNat then value.increment else value).toNat =
        if tail.increments value.toNat then value.toNat + 1 else value.toNat := by
      rw [hbit]
      split
      · exact increment_toNat (Nat.lt_of_le_of_lt (Nat.succ_le_succ hvalue) (Nat.lt_trans hmax (by decide)))
      · rfl
    rw [dif_pos hfits]
    dsimp only
    by_cases hcarried : (if tail.increments value.low.toNat then value.increment else value).fitsMantissa = true
    · have hle := fitsMantissa_iff.mp hcarried
      rw [hrounded] at hle
      rw [dif_pos hcarried, dif_pos ⟨hfits.1, hvalue, hle⟩]
      congr 2
      rw [toU128_eq (by rw [hrounded]; exact Nat.lt_of_le_of_lt hle (by decide)), hrounded]
    · rw [dif_neg hcarried, dif_neg]
      intro h
      apply hcarried
      rw [fitsMantissa_iff, hrounded]
      exact h.2.2
  · rw [dif_neg hfits, dif_neg]
    intro h
    exact hfits ⟨h.1, fitsMantissa_iff.mpr h.2.1⟩

theorem U192.fitToUnits_eq (value : U192) (tail : RoundingTail) (scale : Nat) :
    value.fitToUnits tail scale = Agiru.fitToUnits value.toNat tail scale := by
  induction scale generalizing value tail with
  | zero =>
    cases hfitted : Agiru.fitted value.toNat 0 tail with
    | some m | none => simp only [U192.fitToUnits, Agiru.fitToUnits, fitted_eq, hfitted]
  | succ scale ih =>
    obtain ⟨hquotient, hdigit⟩ := divModSmall_eq (w := value) (d := 10) (by decide) (by decide)
    rw [U192.fitToUnits, Agiru.fitToUnits, fitted_eq]
    cases Agiru.fitted value.toNat (scale + 1) tail with
    | some m => rfl
    | none =>
      dsimp only
      rw [ih, hquotient, hdigit]

namespace Decimal

/-- The mantissas at the greater scale, and their sum, have room in 192 bits. -/
theorem aligned_lt (a b : Decimal) : a.units * 10 ^ (b.scale - a.scale) < 2 ^ 191 := by
  have hplaces : b.scale - a.scale ≤ 28 := Nat.le_trans (Nat.sub_le _ _) b.places
  calc a.units * 10 ^ (b.scale - a.scale)
      ≤ (2 ^ 96 - 1) * 10 ^ 28 := Nat.mul_le_mul a.fits (Nat.pow_le_pow_right (by decide) hplaces)
    _ < 2 ^ 191 := by norm_num

theorem ofUnits_toNat (a : Decimal) : (U192.ofUnits a.units).toNat = a.units :=
  U192.ofUnits_toNat (Nat.lt_of_le_of_lt a.fits (by decide))

theorem alignWide_eq (a b : Decimal) :
    ∃ left right, alignWide a b = .ok (left, right) ∧ left.toNat = a.units * 10 ^ (b.scale - a.scale) ∧
      right.toNat = b.units * 10 ^ (a.scale - b.scale) := by
  have hleft := aligned_lt a b
  have hright := aligned_lt b a
  rw [← ofUnits_toNat] at hleft hright
  obtain ⟨left, hl, hlvalue⟩ := U192.raise_eq (Nat.lt_trans hleft (by decide))
  obtain ⟨right, hr, hrvalue⟩ := U192.raise_eq (Nat.lt_trans hright (by decide))
  rw [ofUnits_toNat] at hlvalue hrvalue
  exact ⟨left, right, by rw [alignWide, hl, hr]; rfl, hlvalue, hrvalue⟩

/-- On the limbs the sum is the sum of the numbers. -/
theorem plus_eq (a b : Decimal) : a.plus b = a.add b := by
  obtain ⟨left, right, hwide, hleft, hright⟩ := alignWide_eq a b
  have hlroom := aligned_lt a b
  have hrroom := aligned_lt b a
  rw [← hleft] at hlroom
  rw [← hright] at hrroom
  rw [plus, add, Fallible.bind_ok hwide, Fallible.bind_ok (align_ok a b)]
  dsimp only
  rw [← hleft, ← hright]
  by_cases hsign : a.negative = b.negative
  · rw [if_pos hsign, if_pos hsign]
    dsimp only
    rw [U192.fitToUnits_eq, U192.add_toNat (by omega)]
  · rw [if_neg hsign, if_neg hsign]
    by_cases hle : right.toNat ≤ left.toNat
    · have hcompare : left.compare right ≠ .lt := by
        rw [U192.compare_eq, ne_eq, compare_lt_iff_lt]
        exact Nat.not_lt.mpr hle
      rw [if_pos hcompare, if_pos hle]
      dsimp only
      rw [U192.fitToUnits_eq, U192.sub_toNat hle]
    · have hcompare : ¬ left.compare right ≠ .lt := by
        rw [U192.compare_eq, not_not, compare_lt_iff_lt]
        exact Nat.lt_of_not_le hle
      rw [if_neg hcompare, if_neg hle]
      dsimp only
      rw [U192.fitToUnits_eq, U192.sub_toNat (Nat.le_of_not_le hle)]

theorem product_toNat (a b : Decimal) : (a.product b).toNat = a.units * b.units := by
  have hmax : maxUnits < 2 ^ 96 := by decide
  rw [product, U192.multipliedBy_toNat _ (Nat.lt_of_le_of_lt b.fits hmax), ofUnits_toNat]
  rw [ofUnits_toNat]
  exact Nat.lt_of_le_of_lt a.fits hmax

end Decimal

/-! ### Digits dropped one at a time -/

/-- The tail of a remainder: whether there is any, and on which side of a half it lies. -/
structure RoundingTail.Of (tail : RoundingTail) (r p : Nat) : Prop where
  nothing : tail.digit = 0 ∧ tail.sticky = false ↔ r = 0
  half : tail.digit = 5 ∧ tail.sticky = false ↔ 2 * r = p
  more : 5 < tail.digit ∨ (tail.digit = 5 ∧ tail.sticky = true) ↔ p < 2 * r

theorem RoundingTail.of_nothing : RoundingTail.Of {} 0 1 := ⟨by simp, by simp, by simp⟩

theorem RoundingTail.Of.prepend {r p : Nat} (h : tail.Of r p) (hr : r < p) (digit : Nat) :
    (tail.prepend digit).Of (digit * p + r) (p * 10) := by
  have hp : 0 < p := Nat.zero_lt_of_lt hr
  have hsticky : (tail.prepend digit).sticky = false ↔ r = 0 := by
    rw [← h.nothing, RoundingTail.prepend, Bool.or_eq_false_iff, decide_eq_false_iff_not, not_not, and_comm]
  have hsticky' : (tail.prepend digit).sticky = true ↔ r ≠ 0 := by
    rw [ne_eq, ← hsticky, Bool.not_eq_false]
  have hdigit : (tail.prepend digit).digit = digit := rfl
  constructor
  · rw [hdigit, hsticky, Nat.add_eq_zero_iff, Nat.mul_eq_zero, or_iff_left hp.ne']
  · rw [hdigit, hsticky]
    rcases Nat.lt_trichotomy digit 5 with hless | rfl | hmore
    · have : digit * p ≤ 4 * p := Nat.mul_le_mul_right p (by omega)
      omega
    · omega
    · have : 6 * p ≤ digit * p := Nat.mul_le_mul_right p hmore
      omega
  · rw [hdigit, hsticky']
    rcases Nat.lt_trichotomy digit 5 with hless | rfl | hmore
    · have : digit * p ≤ 4 * p := Nat.mul_le_mul_right p (by omega)
      omega
    · omega
    · have : 6 * p ≤ digit * p := Nat.mul_le_mul_right p hmore
      omega

/-- A tail increments where the remainder is more than a half, or is a half of an odd value. -/
theorem RoundingTail.Of.increments_iff {r p : Nat} (h : tail.Of r p) (value : Nat) :
    tail.increments value = true ↔ p < 2 * r ∨ (2 * r = p ∧ value % 2 = 1) := by
  rw [← h.more, ← h.half, increments]
  simp only [Bool.or_eq_true, Bool.and_eq_true, decide_eq_true_eq]
  cases tail.sticky <;> simp

/-- What is fitted is the value and its remainder, rounded half to even. -/
theorem fitted_spec (value : Nat) {p r : Nat} (htail : tail.Of r p) (hr : r < p) (scale : Nat) :
    match fitted value scale tail with
    | some m => m.scale = scale ∧ (m.units : ℤ) = halfEven ((value * p + r : ℕ) / (p : ℕ) : ℚ)
    | none => scale ≤ maxScale → (maxUnits : ℤ) < halfEven ((value * p + r : ℕ) / (p : ℕ) : ℚ) := by
  have hround : halfEven ((value * p + r : ℕ) / (p : ℕ) : ℚ) =
      ((if tail.increments value then value + 1 else value : ℕ) : ℤ) := by
    rw [halfEven_div hr]
    congr 1
    simp only [htail.increments_iff value]
  rw [hround]
  unfold fitted
  dsimp only
  by_cases h : scale ≤ maxScale ∧ value ≤ maxUnits ∧ 
      (if tail.increments value then value + 1 else value) ≤ maxUnits
  · rw [dif_pos h]
    exact ⟨rfl, rfl⟩
  · rw [dif_neg h]
    intro hscale
    rw [Int.ofNat_lt]
    by_contra hle
    apply h
    have hvalue : value ≤ if tail.increments value then value + 1 else value := by
      split
      · exact Nat.le_succ value
      · exact Nat.le_refl value
    exact ⟨hscale, Nat.le_trans hvalue (Nat.le_of_not_lt hle), Nat.le_of_not_lt hle⟩

/-- What `FitToUnits` answers: the greatest scale at which the number, rounded once, fits. -/
def Fit (x : ℚ) (scale : Nat) : Except DecimalError Magnitude → Prop
  | .ok m => m.scale ≤ scale ∧ (m.units : ℤ) = halfEven (x * 10 ^ m.scale) ∧
      ∀ t, m.scale < t → t ≤ scale → t ≤ maxScale → (maxUnits : ℤ) < halfEven (x * 10 ^ t)
  | .error e => e = .overflow ∧ (maxUnits : ℤ) < halfEven x

theorem fitToUnits_spec (value : Nat) {p r : Nat} (htail : tail.Of r p) (hr : r < p) (scale : Nat) :
    Fit ((value * p + r : ℕ) / ((p : ℕ) * 10 ^ scale)) scale (fitToUnits value tail scale) := by
  induction scale generalizing value p r tail with
  | zero =>
    have hspec := fitted_spec value htail hr 0
    rw [fitToUnits]
    cases hfit : fitted value 0 tail with
    | some m =>
      rw [hfit] at hspec
      obtain ⟨hscale, hunits⟩ := hspec
      refine ⟨hscale.le, ?_, ?_⟩
      · rw [hscale, pow_zero, mul_one, mul_one]
        exact hunits
      · intro t hlow hhigh
        omega
    | none =>
      rw [hfit] at hspec
      refine ⟨rfl, ?_⟩
      rw [pow_zero, mul_one]
      exact hspec (Nat.zero_le _)
  | succ scale ih =>
    have hspec := fitted_spec value htail hr (scale + 1)
    have hp : (p : ℚ) ≠ 0 := by exact_mod_cast (Nat.zero_lt_of_lt hr).ne'
    have hten : (10 : ℚ) ^ (scale + 1) ≠ 0 := pow_ne_zero _ (by norm_num)
    have htop : ((value * p + r : ℕ) / ((p : ℕ) * 10 ^ (scale + 1)) : ℚ) * 10 ^ (scale + 1) =
        (value * p + r : ℕ) / (p : ℕ) := by
      field_simp
    rw [fitToUnits]
    cases hfit : fitted value (scale + 1) tail with
    | some m =>
      rw [hfit] at hspec
      obtain ⟨hscale, hunits⟩ := hspec
      refine ⟨hscale.le, ?_, ?_⟩
      · rw [hscale, htop]
        exact hunits
      · intro t hlow hhigh
        omega
    | none =>
      rw [hfit] at hspec
      have hdigit : value % 10 < 10 := Nat.mod_lt _ (by decide)
      have hless : value % 10 * p + r < p * 10 := by
        have : value % 10 * p ≤ 9 * p := Nat.mul_le_mul_right p (by omega)
        omega
      have hnext := ih (value / 10) (htail.prepend hr (value % 10)) hless
      -- the number is the same: the digit went from the value to the remainder
      have hsame : value / 10 * (p * 10) + (value % 10 * p + r) = value * p + r := by
        conv_rhs => rw [← Nat.div_add_mod value 10]
        ring
      have hquotient : ((value / 10 * (p * 10) + (value % 10 * p + r) : ℕ) / ((p * 10 : ℕ) * 10 ^ scale) : ℚ) =
          (value * p + r : ℕ) / ((p : ℕ) * 10 ^ (scale + 1)) := by
        rw [hsame, pow_succ']
        push_cast
        rw [mul_assoc]
      rw [hquotient] at hnext
      dsimp only
      cases hrest : fitToUnits (value / 10) (tail.prepend (value % 10)) scale with
      | error e =>
        rw [hrest] at hnext
        exact hnext
      | ok m =>
        rw [hrest] at hnext
        obtain ⟨hle, hunits, hgreater⟩ := hnext
        refine ⟨Nat.le_succ_of_le hle, hunits, ?_⟩
        intro t hlow hhigh hplaces
        rcases Nat.lt_or_eq_of_le hhigh with hbelow | rfl
        · exact hgreater t hlow (Nat.lt_succ_iff.mp hbelow) hplaces
        · rw [htop]
          exact hspec hplaces

/-! ### One rounding of the exact result -/

/-- At this scale the number, rounded, fits the mantissa. -/
def Fits (x : ℚ) (scale : Nat) : Prop := |halfEven (x * 10 ^ scale)| ≤ (maxUnits : ℤ)

/-- The greatest scale up to the natural one at which the number, rounded, fits. -/
structure Largest (x : ℚ) (natural scale : Nat) : Prop where
  le : scale ≤ natural
  places : scale ≤ maxScale
  fits : Fits x scale
  greatest : ∀ t, scale < t → t ≤ natural → t ≤ maxScale → ¬ Fits x t

theorem fits_iff {x : ℚ} {scale : Nat} : Fits x scale ↔ halfEven (|x| * 10 ^ scale) ≤ (maxUnits : ℤ) := by
  have hten : (0 : ℚ) ≤ 10 ^ scale := by positivity
  rw [Fits, abs_halfEven, abs_mul, abs_of_nonneg hten]

/-- Where more places fit, fewer do. -/
theorem Fits.mono {x : ℚ} {s t : Nat} (h : Fits x t) (hle : s ≤ t) : Fits x s := by
  rw [fits_iff] at h ⊢
  refine (halfEven_mono ?_).trans h
  exact mul_le_mul_of_nonneg_left (pow_le_pow_right₀ (by norm_num) hle) (abs_nonneg x)

/-- What fits without places fits at some greatest scale. -/
theorem exists_largest {x : ℚ} (natural : Nat) (h : Fits x 0) : ∃ scale, Largest x natural scale := by
  classical
  have hbound := Nat.findGreatest_le (P := Fits x) (min natural maxScale)
  refine ⟨Nat.findGreatest (Fits x) (min natural maxScale), hbound.trans (min_le_left _ _),
    hbound.trans (min_le_right _ _), Nat.findGreatest_spec (P := Fits x) (Nat.zero_le _) h, ?_⟩
  intro t hlow hnatural hplaces
  exact Nat.findGreatest_is_greatest hlow (le_min hnatural hplaces)

/-- A number of no more places than are kept is kept as it is. -/
theorem Largest.exact {x : ℚ} {natural scale places : Nat} (h : Largest x natural scale) {n : ℤ}
    (hn : x * 10 ^ places = n) (hfits : Fits x places) (hnatural : places ≤ natural) (hmax : places ≤ maxScale) :
    (halfEven (x * 10 ^ scale) : ℚ) / 10 ^ scale = x := by
  have hle : places ≤ scale := by
    by_contra hless
    exact h.greatest places (Nat.lt_of_not_le hless) hnatural hmax hfits
  have hten : (10 : ℚ) ^ scale ≠ 0 := pow_ne_zero _ (by norm_num)
  have hwhole : x * 10 ^ scale = ((n * 10 ^ (scale - places) : ℤ) : ℚ) := by
    push_cast
    rw [← hn, mul_assoc, ← pow_add, Nat.add_sub_cancel' hle]
  rw [hwhole, halfEven_intCast, ← hwhole, mul_div_cancel_right₀ _ hten]

theorem Largest.unique {x : ℚ} {natural s t : Nat} (hs : Largest x natural s) (ht : Largest x natural t) : s = t := by
  rcases Nat.lt_trichotomy s t with hless | rfl | hgreater
  · exact absurd ht.fits (hs.greatest t hless ht.le ht.places)
  · rfl
  · exact absurd hs.fits (ht.greatest s hgreater hs.le hs.places)

/-- An operation answers its exact result, rounded at the greatest scale up to the natural one at
which it fits; it raises where it does not even fit at scale 0. -/
def RoundsOnce (x : ℚ) (natural : Nat) : Except DecimalError Decimal → Prop
  | .ok d => Fits x 0 ∧ Fits x d.scale ∧ d.scale ≤ natural ∧
      (∀ t, d.scale < t → t ≤ natural → t ≤ maxScale → ¬ Fits x t) ∧
      d.rational = halfEven (x * 10 ^ d.scale) / 10 ^ d.scale
  | .error e => e = .overflow ∧ ¬ Fits x 0

/-- A sign. -/
def sign (negative : Bool) : ℚ := if negative then -1 else 1

theorem halfEven_sign (negative : Bool) (x : ℚ) :
    (halfEven (sign negative * x) : ℚ) = sign negative * halfEven x := by
  cases negative with
  | false => simp [sign]
  | true =>
    rw [sign, if_pos rfl, neg_one_mul, neg_one_mul, halfEven_neg]
    push_cast
    rfl

theorem fits_signed {negative : Bool} {x : ℚ} (hx : 0 ≤ x) (scale : Nat) :
    Fits (sign negative * x) scale ↔ halfEven (x * 10 ^ scale) ≤ (maxUnits : ℤ) := by
  have hnonneg : 0 ≤ halfEven (x * 10 ^ scale) := halfEven_nonneg (by positivity)
  unfold Fits
  rw [mul_assoc]
  cases negative with
  | false => rw [sign, if_neg Bool.false_ne_true, one_mul, abs_of_nonneg hnonneg]
  | true => rw [sign, if_pos rfl, neg_one_mul, halfEven_neg, abs_neg, abs_of_nonneg hnonneg]

theorem make_rational (m : Magnitude) (negative : Bool) :
    (Decimal.make m negative).rational = sign negative * (m.units / 10 ^ m.scale) := by
  rw [Decimal.rational_eq]
  show (if (negative && decide (m.units ≠ 0)) then (-1 : ℚ) else 1) * (m.units / 10 ^ m.scale) = _
  by_cases hzero : m.units = 0
  · rw [hzero]
    simp
  · cases negative <;> simp [sign, hzero]

/-- A magnitude that is fitted, and its sign. -/
theorem roundsOnce_make {x : ℚ} {value scale : Nat} {negative : Bool}
    (hx : x = sign negative * (value / 10 ^ scale)) :
    RoundsOnce x scale (do
      let m ← fitToUnits value {} scale
      return Decimal.make m negative) := by
  have hspec := fitToUnits_spec value RoundingTail.of_nothing (by decide) scale
  rw [show ((value * 1 + 0 : ℕ) / ((1 : ℕ) * 10 ^ scale) : ℚ) = value / 10 ^ scale by simp] at hspec
  have hnonneg : (0 : ℚ) ≤ value / 10 ^ scale := by positivity
  rw [hx]
  generalize (value / 10 ^ scale : ℚ) = y at hspec hnonneg
  cases hfit : fitToUnits value {} scale with
  | error e =>
    rw [hfit] at hspec
    obtain ⟨rfl, hover⟩ := hspec
    refine ⟨rfl, ?_⟩
    rw [fits_signed hnonneg, pow_zero, mul_one]
    exact not_le.mpr hover
  | ok m =>
    rw [hfit] at hspec
    obtain ⟨hscale, hunits, hgreater⟩ := hspec
    have hfits : halfEven (y * 10 ^ m.scale) ≤ (maxUnits : ℤ) := by
      rw [← hunits]
      exact_mod_cast m.fits
    refine ⟨?_, (fits_signed hnonneg _).mpr hfits, hscale, ?_, ?_⟩
    · rw [fits_signed hnonneg, pow_zero, mul_one]
      refine (halfEven_mono ?_).trans hfits
      exact le_mul_of_one_le_right hnonneg (one_le_pow₀ (by norm_num))
    · intro t hlow hhigh hplaces
      rw [fits_signed hnonneg]
      exact not_le.mpr (hgreater t hlow hhigh hplaces)
    · show (Decimal.make m negative).rational = halfEven (sign negative * y * 10 ^ m.scale) / 10 ^ m.scale
      rw [make_rational, mul_assoc, halfEven_sign, ← hunits, mul_div_assoc]
      push_cast
      rfl

/-- A number beyond the greatest mantissa rounds beyond it. -/
theorem over_of_le {y : ℚ} (h : (maxUnits : ℚ) + 1 ≤ y) : (maxUnits : ℤ) < halfEven y := by
  have hcast : (((maxUnits + 1 : ℕ) : ℤ) : ℚ) ≤ y := by
    rw [Int.cast_natCast, Nat.cast_succ]
    exact h
  have hround := halfEven_mono hcast
  rw [halfEven_intCast] at hround
  omega

section
variable {x y : ℚ} {negative : Bool} {kept : Nat} {m : Magnitude} (h : Fit y kept (.ok m))
  (hx : x = sign negative * y)
include h hx

theorem Fit.fits (hy : 0 ≤ y) : Fits x m.scale := by
  rw [hx, fits_signed hy, ← h.2.1]
  exact_mod_cast m.fits

theorem Fit.rational : (Decimal.make m negative).rational = halfEven (x * 10 ^ m.scale) / 10 ^ m.scale := by
  rw [make_rational, hx, mul_assoc, halfEven_sign, ← h.2.1, mul_div_assoc]
  push_cast
  rfl

/-- What fits at the scale it has keeps it. -/
theorem Fit.scale_eq (hy : 0 ≤ y) (hfits : Fits x kept) (hplaces : kept ≤ maxScale) : m.scale = kept := by
  by_contra hne
  rw [hx, fits_signed hy] at hfits
  exact absurd hfits (not_le.mpr (h.2.2 kept (Nat.lt_of_le_of_ne h.1 hne) le_rfl hplaces))

/-- Where another place has no room, the scale is the greatest. -/
theorem Fit.largest (hy : 0 ≤ y) {natural : Nat} (hkept : kept ≤ natural)
    (hover : kept < natural → kept < maxScale → (maxUnits : ℚ) + 1 ≤ y * 10 ^ (kept + 1)) :
    Largest x natural m.scale := by
  refine ⟨h.1.trans hkept, m.places, h.fits hx hy, fun t hlow hnatural hplaces => ?_⟩
  by_cases hinside : t ≤ kept
  · rw [hx, fits_signed hy, not_le]
    exact h.2.2 t hlow hinside hplaces
  · have hgreat := hover (by omega) (by omega)
    intro hfits
    have hnext := hfits.mono (show kept + 1 ≤ t by omega)
    rw [hx, fits_signed hy] at hnext
    exact absurd hnext (not_le.mpr (over_of_le hgreat))

end

namespace Decimal

theorem rational_signed (a : Decimal) : a.rational = sign a.negative * (a.units / 10 ^ a.scale) := a.rational_eq

/-- A decimal's magnitude at the greater of two scales. -/
theorem rational_aligned (a : Decimal) (scale : Nat) :
    a.rational = sign a.negative * ((a.units * 10 ^ (scale - a.scale) : ℕ) / 10 ^ max a.scale scale) := by
  have hmax : max a.scale scale = a.scale + (scale - a.scale) := by omega
  have hten : (10 : ℚ) ^ (scale - a.scale) ≠ 0 := pow_ne_zero _ (by norm_num)
  rw [rational_signed, hmax, pow_add]
  push_cast
  rw [mul_div_mul_right _ _ hten]

theorem add_roundsOnce (a b : Decimal) : RoundsOnce (a.rational + b.rational) (max a.scale b.scale) (a.add b) := by
  have ha := a.rational_aligned b.scale
  have hb := b.rational_aligned a.scale
  rw [max_comm] at hb
  rw [add, Fallible.bind_ok (align_ok a b)]
  dsimp only
  generalize a.units * 10 ^ (b.scale - a.scale) = left at *
  generalize b.units * 10 ^ (a.scale - b.scale) = right at *
  rw [ha, hb]
  by_cases hsame : a.negative = b.negative
  · rw [if_pos hsame]
    apply roundsOnce_make
    rw [← hsame, ← mul_add, ← add_div]
    push_cast
    rfl
  · have hopposite : sign b.negative = -sign a.negative := by
      cases ha : a.negative <;> cases hb : b.negative <;> simp [ha, hb] at hsame <;> simp [sign]
    rw [if_neg hsame]
    split
    · rename_i hle
      apply roundsOnce_make
      rw [hopposite, neg_mul, ← sub_eq_add_neg, ← mul_sub, ← sub_div, Nat.cast_sub hle]
    · rename_i hlt
      apply roundsOnce_make
      rw [Nat.cast_sub (Nat.le_of_not_le hlt), sub_div, mul_sub, hopposite]
      ring

theorem neg_rational (a : Decimal) : a.neg.rational = -a.rational := by
  rw [rational_signed, rational_signed]
  show sign (a.units ≠ 0 && !a.negative) * (a.units / 10 ^ a.scale) = _
  by_cases hzero : a.units = 0
  · rw [hzero]
    simp
  · cases a.negative <;> simp [sign, hzero]

theorem mul_rational (a b : Decimal) : a.rational * b.rational =
    sign (a.negative != b.negative) * ((a.units * b.units : ℕ) / 10 ^ (a.scale + b.scale)) := by
  rw [rational_signed, rational_signed, pow_add]
  push_cast
  cases a.negative <;> cases b.negative <;> simp [sign] <;> ring

/-- Where `operator*=` answers zero without places: small mantissas of more places than their
product's digits can reach, or a product that is zero of mantissas that are not both small. -/
def Shortened (a b : Decimal) : Prop :=
  (a.units < 2 ^ 32 ∧ b.units < 2 ^ 32 ∧ 47 < a.scale + b.scale) ∨
    (¬ (a.units < 2 ^ 32 ∧ b.units < 2 ^ 32) ∧ a.units * b.units = 0)

theorem times_eq (a b : Decimal) :
    (Shortened a b → a.times b = .ok zero) ∧
      (¬ Shortened a b → a.times b = do
        let m ← fitToUnits (a.units * b.units) {} (a.scale + b.scale)
        return make m (a.negative != b.negative)) := by
  have hproduct := product_toNat a b
  have hzero : a.product b = {} ↔ a.units * b.units = 0 := by
    rw [← hproduct]
    constructor
    · intro h
      rw [h]
      rfl
    · intro h
      unfold U192.toNat at h
      rw [U192.mk.injEq (a.product b).low, ← UInt64.toNat_inj, ← UInt64.toNat_inj, ← UInt64.toNat_inj]
      simp only [UInt64.toNat_zero]
      omega
  have hlimit : maxScale + 19 = 47 := rfl
  have hcase : ((decide (a.units ≤ 2 ^ 32 - 1) && decide (b.units ≤ 2 ^ 32 - 1)) && decide
      (maxScale + 19 < a.scale + b.scale) ||
      !(decide (a.units ≤ 2 ^ 32 - 1) && decide (b.units ≤ 2 ^ 32 - 1)) && decide (a.product b = {})) = true ↔
        Shortened a b := by
    rw [Bool.or_eq_true, Bool.and_eq_true, Bool.and_eq_true, Bool.and_eq_true, Bool.not_eq_true', Bool.and_eq_false_iff]
    simp only [decide_eq_true_eq, decide_eq_false_iff_not, hzero, Shortened, hlimit]
    omega
  rw [times]
  constructor
  · intro h
    rw [if_pos (hcase.mpr h)]
  · intro h
    rw [if_neg (mt hcase.mp h), U192.fitToUnits_eq, hproduct]

/-- There the exact result rounds to zero. -/
theorem Shortened.halfEven_eq {a b : Decimal} (h : Shortened a b) :
    halfEven (a.rational * b.rational * 10 ^ min maxScale (a.scale + b.scale)) = 0 := by
  have hmagnitude : 0 ≤ 2 * (((a.units * b.units : ℕ) : ℚ) / 10 ^ (a.scale + b.scale) *
      10 ^ min maxScale (a.scale + b.scale)) := by
    positivity
  have hless : 2 * (((a.units * b.units : ℕ) : ℚ) / 10 ^ (a.scale + b.scale) *
      10 ^ min maxScale (a.scale + b.scale)) < 1 := by
    rcases h with ⟨ha, hb, hplaces⟩ | ⟨-, hnone⟩
    · have hmax : maxScale = 28 := rfl
      obtain ⟨more, hmore⟩ : ∃ more, a.scale + b.scale = maxScale + 20 + more :=
        ⟨a.scale + b.scale - (maxScale + 20), by omega⟩
      have hmin : min maxScale (a.scale + b.scale) = maxScale := by omega
      have hunits : a.units * b.units ≤ (2 ^ 32 - 1) * (2 ^ 32 - 1) := Nat.mul_le_mul (by omega) (by omega)
      have hbound : 2 * ((a.units * b.units : ℕ) : ℚ) < 10 ^ 20 := by
        have : 2 * (a.units * b.units) < 10 ^ 20 := by omega
        exact_mod_cast this
      have hplaces : (10 : ℚ) ^ (a.scale + b.scale) = 10 ^ (20 + more) * 10 ^ maxScale := by
        rw [hmore, ← pow_add]
        congr 1
        omega
      rw [hmin, hplaces, ← div_div, div_mul_cancel₀ _ (pow_ne_zero _ (by norm_num)), ← mul_div_assoc,
        div_lt_one (by positivity)]
      exact hbound.trans_le (pow_le_pow_right₀ (by norm_num) (Nat.le_add_right 20 more))
    · rw [hnone]
      simp
  have hnearest : halfEven (((a.units * b.units : ℕ) : ℚ) / 10 ^ (a.scale + b.scale) *
      10 ^ min maxScale (a.scale + b.scale)) = 0 := by
    apply Nearest.eq
    left
    rwa [Int.cast_zero, sub_zero, abs_of_nonneg hmagnitude]
  have hsigned : (halfEven (a.rational * b.rational * 10 ^ min maxScale (a.scale + b.scale)) : ℚ) = 0 := by
    rw [mul_rational, mul_assoc, halfEven_sign, hnearest, Int.cast_zero, mul_zero]
  exact_mod_cast hsigned

/-! ### The operators -/

/-- Sums and differences are the exact result rounded once. So are products, but that a zero may be
answered without its places. -/
theorem arithmetic_rounds_once (a b : Decimal) :
    RoundsOnce (a.rational + b.rational) (max a.scale b.scale) (a.plus b) ∧
      RoundsOnce (a.rational - b.rational) (max a.scale b.scale) (a.minus b) ∧
      (¬ Shortened a b → RoundsOnce (a.rational * b.rational) (a.scale + b.scale) (a.times b)) ∧
      (Shortened a b → a.times b = .ok zero ∧
        halfEven (a.rational * b.rational * 10 ^ min maxScale (a.scale + b.scale)) = 0) ∧
      (∃ left right, alignWide a b = .ok (left, right) ∧
        left.toNat = a.units * 10 ^ (b.scale - a.scale) ∧ right.toNat = b.units * 10 ^ (a.scale - b.scale) ∧
        (left.add right).toNat = left.toNat + right.toNat ∧
        (right.toNat ≤ left.toNat → (left.sub right).toNat = left.toNat - right.toNat) ∧
        (left.toNat ≤ right.toNat → (right.sub left).toNat = right.toNat - left.toNat)) ∧
      (a.product b).toNat = a.units * b.units := by
  refine ⟨?_, ?_, ?_, fun h => ⟨(times_eq a b).1 h, h.halfEven_eq⟩, ?_, product_toNat a b⟩
  · rw [plus_eq]
    exact add_roundsOnce a b
  · rw [minus, plus_eq, sub_eq_add_neg, ← neg_rational]
    exact add_roundsOnce a b.neg
  · intro h
    rw [(times_eq a b).2 h]
    exact roundsOnce_make (mul_rational a b)
  · obtain ⟨left, right, halign, hleft, hright⟩ := alignWide_eq a b
    have hlroom := aligned_lt a b
    have hrroom := aligned_lt b a
    rw [← hleft] at hlroom
    rw [← hright] at hrroom
    exact ⟨left, right, halign, hleft, hright, U192.add_toNat (by omega), U192.sub_toNat, U192.sub_toNat⟩

/-- A product is not always rounded at the greatest scale at which it fits: a zero loses places that fit. -/
theorem zero_loses_its_places :
    ¬ ∀ a b : Decimal, RoundsOnce (a.rational * b.rational) (a.scale + b.scale) (a.times b) := by
  intro h
  have hround := h ⟨0, 2, false, by decide, by decide, by decide⟩
      ⟨2 ^ 32, 0, false, by decide, by decide, by decide⟩
  obtain ⟨-, -, -, hgreatest, -⟩ := hround
  apply hgreatest 2 (by decide) (by decide) (by decide)
  simp [Fits, rational_signed, halfEven_zero]

end Decimal

/-! ### The order of decimals, on the limbs, for any mantissa, scale and sign: it is that of the numbers. -/

namespace Decimal

/-- What a decimal holds; a zero may have a sign here. -/
structure Parts where
  units : Nat
  scale : Nat
  negative : Bool
  fits : units < 2 ^ 96
  places : scale ≤ 28

namespace Parts
variable (a b c : Parts)

/-- `IsNegative`. -/
def isNegative : Bool := a.negative && a.units ≠ 0

/-- The number. -/
def rational : ℚ := (if a.negative then -1 else 1) * (a.units / 10 ^ a.scale)

/-- The decimal without the sign of a zero. -/
def unsignedZero : Decimal where
  units := a.units
  scale := a.scale
  negative := a.isNegative
  fits := Nat.le_sub_one_of_lt a.fits
  places := a.places
  signed := fun h => by simpa [isNegative] using (Bool.and_eq_true_iff.mp h).2

/-- `operator<=>`. -/
def compare : Except DecimalError Ordering :=
  if a.units = 0 ∧ b.units = 0 then .ok .eq
  else if a.isNegative ≠ b.isNegative then .ok (if a.isNegative then .lt else .gt)
  else do
    let (left, right) ← alignWide a.unsignedZero b.unsignedZero
    return if a.isNegative then (left.compare right).swap else left.compare right

theorem unsignedZero_rational : a.unsignedZero.rational = a.rational := by
  rw [rational_eq, rational, unsignedZero]
  by_cases hzero : a.units = 0
  · simp [hzero]
  · simp [isNegative, hzero]

/-- On the limbs a comparison is the one of the magnitudes. -/
theorem compare_eq : a.compare b = .ok (a.unsignedZero.compare b.unsignedZero) := by
  obtain ⟨left, right, hwide, hleft, hright⟩ := alignWide_eq a.unsignedZero b.unsignedZero
  rw [compare, Decimal.compare, align_ok, Fallible.bind_ok hwide]
  dsimp only
  rw [← hleft, ← hright, U192.compare_eq]
  change (if a.units = 0 ∧ b.units = 0 then _ else if a.isNegative ≠ b.isNegative then _ else _) =
    Except.ok (if a.units = 0 ∧ b.units = 0 then _ else if a.isNegative ≠ b.isNegative then _ else _)
  split
  · rfl
  · split <;> rfl

theorem compare_cmp : a.compare b = .ok (cmp a.rational b.rational) := by
  rw [compare_eq, compare_rational, unsignedZero_rational, unsignedZero_rational]

theorem rational_zero (h : a.units = 0) : a.rational = 0 := by
  rw [rational, h, Nat.cast_zero, zero_div, mul_zero]

/-- As many zeros behind the mantissa as there are more places. -/
theorem rational_scaled {k : Nat} (hunits : b.units = a.units * 10 ^ k) (hscale : b.scale = a.scale + k)
    (hsign : b.negative = a.negative) : a.rational = b.rational := by
  rw [rational, rational, hunits, hscale, hsign, Nat.cast_mul, Nat.cast_pow, Nat.cast_ofNat, pow_add,
    mul_div_mul_right _ _ (pow_ne_zero k (by norm_num))]

/-- **Decimals compare as the numbers they are**, without raising: in a total order, with a number of any scale, and
both zeros, alike. -/
theorem compare_total :
    (∀ a b : Parts, a.compare b = .ok (cmp a.rational b.rational)) ∧
    (∀ a b : Parts, a.compare b = .ok .eq ↔ a.rational = b.rational) ∧
    (∀ a b : Parts, a.compare b = .ok .gt ↔ b.compare a = .ok .lt) ∧
    (∀ a b c : Parts, a.compare b ≠ .ok .gt → b.compare c ≠ .ok .gt → a.compare c ≠ .ok .gt) ∧
    (∀ (a b : Parts) (k : Nat), b.units = a.units * 10 ^ k → b.scale = a.scale + k → b.negative = a.negative →
      a.compare b = .ok .eq) ∧
    ∀ a b : Parts, a.units = 0 → b.units = 0 → a.compare b = .ok .eq := by
  have heq : ∀ a b : Parts, a.compare b = .ok .eq ↔ a.rational = b.rational := fun a b => by
    rw [compare_cmp, Except.ok.injEq, cmp_eq_eq_iff]
  have hgt : ∀ a b : Parts, a.compare b = .ok .gt ↔ b.rational < a.rational := fun a b => by
    rw [compare_cmp, Except.ok.injEq, cmp_eq_gt_iff]
  refine ⟨compare_cmp, heq, fun a b => ?_, fun a b c hab hbc => ?_, fun a b k hunits hscale hsign => ?_,
    fun a b ha hb => ?_⟩
  · rw [hgt, compare_cmp, Except.ok.injEq, cmp_eq_lt_iff]
  · rw [ne_eq, hgt, not_lt] at hab hbc ⊢
    exact hab.trans hbc
  · exact (heq a b).mpr (a.rational_scaled b hunits hscale hsign)
  · rw [heq, a.rational_zero ha, b.rational_zero hb]

end Parts
end Decimal

end Agiru
