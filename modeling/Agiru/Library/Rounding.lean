import Mathlib.Algebra.Order.Round
import Mathlib.Data.Int.Log
import Mathlib.Tactic.Positivity
import Mathlib.Tactic.Ring

/-! Rounding to the nearest integer, and to the even one of two that are equally near. -/
namespace Agiru.Rounding

section
variable {α : Type} [Field α] [LinearOrder α]

/-- Nearest to a number, and even where another is equally near. -/
def Nearest (x : α) (n : ℤ) : Prop := |2 * (x - n)| < 1 ∨ (|2 * (x - n)| = 1 ∧ Even n)

theorem Nearest.neg {x : α} {n : ℤ} (h : Nearest x n) : Nearest (-x) (-n) := by
  have habs : |2 * (-x - (-n : ℤ))| = |2 * (x - n)| := by
    rw [← abs_neg]
    congr 1
    push_cast
    ring
  rcases h with hless | ⟨hhalf, heven⟩
  · exact .inl (habs.trans_lt hless)
  · exact .inr ⟨habs.trans hhalf, heven.neg⟩

variable [IsStrictOrderedRing α]

/-- Nearest integers are ordered as the numbers are. -/
theorem Nearest.mono {x y : α} {n m : ℤ} (hn : Nearest x n) (hm : Nearest y m) (h : x ≤ y) : n ≤ m := by
  by_contra hlt
  have hstep : (m : α) + 1 ≤ n := by exact_mod_cast Int.lt_of_not_ge hlt
  have hlow : -1 ≤ 2 * (x - n) := neg_le_of_abs_le (hn.elim le_of_lt fun h => h.1.le)
  have hhigh : 2 * (y - m) ≤ 1 := le_of_abs_le (hm.elim le_of_lt fun h => h.1.le)
  -- then both lie half a unit off, and two neighbours are even
  have hx : 2 * (x - n) = -1 := by linarith
  have hy : 2 * (y - m) = 1 := by linarith
  have hnext : n = m + 1 := by
    have : (n : α) = m + 1 := by linarith
    exact_mod_cast this
  rcases hn with hless | ⟨-, hn⟩
  · rw [hx, abs_neg, abs_one] at hless
    exact lt_irrefl _ hless
  · rcases hm with hless | ⟨-, hm⟩
    · rw [hy, abs_one] at hless
      exact lt_irrefl _ hless
    · rw [hnext, Int.even_add_one] at hn
      exact hn hm

theorem Nearest.unique {x : α} {n m : ℤ} (hn : Nearest x n) (hm : Nearest x m) : n = m :=
  le_antisymm (hn.mono hm le_rfl) (hm.mono hn le_rfl)

variable [FloorRing α]

/-- Half to even. -/
def halfEven (x : α) : ℤ :=
  if 2 * (x - ⌊x⌋) < 1 ∨ (2 * (x - ⌊x⌋) = 1 ∧ Even ⌊x⌋) then ⌊x⌋ else ⌊x⌋ + 1

theorem halfEven_nearest (x : α) : Nearest x (halfEven x) := by
  have hlow := Int.floor_le x
  have hhigh := Int.lt_floor_add_one x
  have habs : |2 * (x - ⌊x⌋)| = 2 * (x - ⌊x⌋) := abs_of_nonneg (by linarith)
  unfold halfEven
  split
  · rename_i h
    rwa [Nearest, habs]
  · rename_i h
    obtain ⟨hge, htie⟩ := not_or.mp h
    have habs' : |2 * (x - (⌊x⌋ + 1 : ℤ))| = 2 - 2 * (x - ⌊x⌋) := by
      rw [← abs_neg, abs_of_nonneg (by push_cast; linarith)]
      push_cast
      ring
    rw [Nearest, habs']
    rcases lt_or_eq_of_le (not_lt.mp hge) with hmore | hhalf
    · exact .inl (by linarith)
    · refine .inr ⟨by linarith, ?_⟩
      rw [Int.even_add_one]
      exact fun heven => htie ⟨hhalf.symm, heven⟩

theorem Nearest.eq {x : α} {n : ℤ} (h : Nearest x n) : halfEven x = n := (halfEven_nearest x).unique h

theorem halfEven_neg (x : α) : halfEven (-x) = -halfEven x := (halfEven_nearest x).neg.eq

theorem halfEven_mono {x y : α} (h : x ≤ y) : halfEven x ≤ halfEven y :=
  (halfEven_nearest x).mono (halfEven_nearest y) h

theorem halfEven_zero : halfEven (0 : α) = 0 :=
  Nearest.eq (.inl (by simp))

theorem halfEven_intCast (n : ℤ) : halfEven (n : α) = n :=
  Nearest.eq (.inl (by simp))

theorem halfEven_nonneg {x : α} (h : 0 ≤ x) : 0 ≤ halfEven x := by
  rw [show (0 : ℤ) = halfEven (0 : α) from halfEven_zero.symm]
  exact halfEven_mono h

/-- It is the same for a number and its negation. -/
theorem abs_halfEven (x : α) : |halfEven x| = halfEven |x| := by
  rcases abs_cases x with ⟨habs, hsign⟩ | ⟨habs, hsign⟩
  · rw [habs, abs_of_nonneg (halfEven_nonneg hsign)]
  · have hnonneg : 0 ≤ halfEven (-x) := halfEven_nonneg (neg_nonneg.mpr hsign.le)
    rw [habs, ← abs_of_nonneg hnonneg, halfEven_neg, abs_neg]

/-- Half a unit before an integer or beyond, and beyond where the integer is odd. -/
def Reaches (x : α) (n : ℤ) : Prop := n < x + 1 / 2 ∨ (n = x + 1 / 2 ∧ Even n)

instance (x : α) (n : ℤ) : Decidable (Reaches x n) := inferInstanceAs (Decidable (_ ∨ _))

/-- A number is rounded to what it reaches. -/
theorem le_halfEven_iff {x : α} {n : ℤ} : n ≤ halfEven x ↔ Reaches x n := by
  have hnearest := halfEven_nearest x
  generalize halfEven x = h at hnearest
  have hbound : |2 * (x - h)| ≤ 1 := hnearest.elim le_of_lt fun htie => htie.1.le
  have hlow : -1 ≤ 2 * (x - h) := neg_le_of_abs_le hbound
  have hhigh : 2 * (x - h) ≤ 1 := le_of_abs_le hbound
  constructor
  · intro hle
    have hcast : (n : α) ≤ h := by exact_mod_cast hle
    rcases lt_or_eq_of_le (show (n : α) ≤ x + 1 / 2 by linarith) with hless | heq
    · exact .inl hless
    · have hsame : (n : α) = h := by linarith
      have htie : |2 * (x - h)| = 1 := by
        rw [show 2 * (x - h) = -1 by linarith, abs_neg, abs_one]
      have hn : n = h := by exact_mod_cast hsame
      exact .inr ⟨heq, hn ▸ (hnearest.resolve_left (not_lt.mpr htie.ge)).2⟩
  · intro hreaches
    by_contra hless
    have hstep : (h : α) + 1 ≤ n := by exact_mod_cast Int.lt_of_not_ge hless
    rcases hreaches with hmore | ⟨heq, heven⟩
    · linarith
    · have hsame : (n : α) = h + 1 := by linarith
      have hn : n = h + 1 := by exact_mod_cast hsame
      have htie : |2 * (x - h)| = 1 := by
        rw [show 2 * (x - h) = 1 by linarith, abs_one]
      rw [hn, Int.even_add_one] at heven
      exact heven (hnearest.resolve_left (not_lt.mpr htie.ge)).2

/-- A quotient is rounded by its remainder. -/
theorem halfEven_div {value p r : ℕ} (hr : r < p) :
    halfEven ((value * p + r : ℕ) / (p : ℕ) : α) =
      (if p < 2 * r ∨ (2 * r = p ∧ value % 2 = 1) then value + 1 else value : ℕ) := by
  have hp : (0 : α) < p := by exact_mod_cast Nat.zero_lt_of_lt hr
  have hquotient : ((value * p + r : ℕ) / (p : ℕ) : α) = value + r / p := by
    push_cast
    field_simp
  rw [hquotient]
  apply Nearest.eq
  have hr' : (r : α) / p < 1 := by
    rw [div_lt_one hp]
    exact_mod_cast hr
  have hpos : (0 : α) ≤ r / p := div_nonneg (Nat.cast_nonneg _) hp.le
  split
  · rename_i h
    have habs : |2 * ((value : α) + r / p - ((value + 1 : ℕ) : ℤ))| = 2 - 2 * (r / p) := by
      rw [← abs_neg, abs_of_nonneg (by push_cast; linarith)]
      push_cast
      ring
    rw [Nearest, habs]
    rcases h with hmore | ⟨hhalf, hodd⟩
    · left
      have : (1 : α) < 2 * (r / p) := by
        rw [← mul_div_assoc, lt_div_iff₀ hp, one_mul]
        exact_mod_cast hmore
      linarith
    · right
      have : (2 : α) * (r / p) = 1 := by
        rw [← mul_div_assoc, div_eq_one_iff_eq hp.ne']
        exact_mod_cast hhalf
      refine ⟨by linarith, ?_⟩
      rw [Int.even_iff]
      omega
  · rename_i h
    obtain ⟨hmore, htie⟩ := not_or.mp h
    have habs : |2 * ((value : α) + r / p - ((value : ℤ) : α))| = 2 * (r / p) := by
      rw [abs_of_nonneg (by push_cast; linarith)]
      push_cast
      ring
    rw [Nearest, habs]
    rcases lt_or_eq_of_le (not_lt.mp hmore) with hless | hhalf
    · left
      rw [← mul_div_assoc, div_lt_one hp]
      exact_mod_cast hless
    · right
      refine ⟨?_, ?_⟩
      · rw [← mul_div_assoc, div_eq_one_iff_eq hp.ne']
        exact_mod_cast hhalf
      · rw [Int.even_iff]
        omega

end

end Agiru.Rounding

/-! ### Rounding to so many significant digits, and away from zero where two numbers are equally near.

A number of more digits has as many of them before the place where it is rounded, so greater numbers round to
greater ones even where they differ in the place (`significant_mono`). -/
namespace Figures

section
variable {α : Type} [Field α] [LinearOrder α] [IsStrictOrderedRing α] [FloorRing α]
variable {base digits : ℕ} {x y : α}

/-- The place of the last of so many digits. -/
def lastPlace (base digits : ℕ) (x : α) : ℤ := Int.log base x + 1 - digits

/-- A number that is not negative, rounded to so many digits. -/
def significant (base digits : ℕ) (x : α) : α :=
  round (x / (base : α) ^ lastPlace base digits x) * (base : α) ^ lastPlace base digits x

theorem significant_zero : significant base digits (0 : α) = 0 := by
  simp [significant]

section
variable (hbase : 1 < base)
include hbase

theorem base_pos (n : ℤ) : (0 : α) < (base : α) ^ n :=
  zpow_pos (by exact_mod_cast Nat.zero_lt_of_lt hbase) n

/-- Fewer places before the point, for a number that is divided by a power of the base. -/
theorem log_div_pow (hx : 0 < x) (places : ℕ) : Int.log base (x / (base : α) ^ places) = Int.log base x - places := by
  have hpos : (0 : α) < (base : α) ^ places := by
    rw [← zpow_natCast]
    exact base_pos hbase places
  have hne : (base : α) ≠ 0 := by exact_mod_cast (Nat.zero_lt_of_lt hbase).ne'
  have hquotient : 0 < x / (base : α) ^ places := div_pos hx hpos
  apply le_antisymm
  · rw [← Int.lt_add_one_iff, ← Int.lt_zpow_iff_log_lt hbase hquotient, div_lt_iff₀ hpos, ← zpow_natCast,
      ← zpow_add₀ hne, sub_add_eq_add_sub, sub_add_cancel]
    exact Int.lt_zpow_succ_log_self hbase x
  · rw [← Int.zpow_le_iff_le_log hbase hquotient, le_div_iff₀ hpos, ← zpow_natCast, ← zpow_add₀ hne, sub_add_cancel]
    exact Int.zpow_log_le_self hbase hx

theorem significant_nonneg (hx : 0 ≤ x) : 0 ≤ significant base digits x := by
  have hpos := base_pos (α := α) hbase (lastPlace base digits x)
  apply mul_nonneg _ hpos.le
  have hround : round (0 : α) ≤ round (x / (base : α) ^ lastPlace base digits x) := by
    rw [round_eq, round_eq]
    exact Int.floor_le_floor (add_le_add_left (div_nonneg hx hpos.le) _)
  rw [round_zero] at hround
  exact_mod_cast hround

/-- A whole number of its last place is kept. -/
theorem significant_of_whole {n : ℤ} (h : x = n * (base : α) ^ lastPlace base digits x) :
    significant base digits x = x := by
  have hpos := base_pos (α := α) hbase (lastPlace base digits x)
  have hwhole : x / (base : α) ^ lastPlace base digits x = n := by
    rw [div_eq_iff hpos.ne', ← h]
  rw [significant, hwhole, round_intCast, ← h]

variable (hx : 0 < x)
include hx

/-- The number in units of its last place has all of the digits. -/
theorem lastPlace_bounds (digits : ℕ) : (base : α) ^ (digits - 1 : ℤ) ≤ x / (base : α) ^ lastPlace base digits x ∧
    x / (base : α) ^ lastPlace base digits x < (base : α) ^ (digits : ℤ) := by
  have hpos := base_pos (α := α) hbase (lastPlace base digits x)
  have hne : (base : α) ≠ 0 := by exact_mod_cast (Nat.zero_lt_of_lt hbase).ne'
  constructor
  · rw [le_div_iff₀ hpos, ← zpow_add₀ hne]
    have hlog : (digits - 1 : ℤ) + lastPlace base digits x = Int.log base x := by
      unfold lastPlace
      ring
    rw [hlog]
    exact Int.zpow_log_le_self hbase hx
  · rw [div_lt_iff₀ hpos, ← zpow_add₀ hne]
    have hlog : (digits : ℤ) + lastPlace base digits x = Int.log base x + 1 := by
      unfold lastPlace
      ring
    rw [hlog]
    exact Int.lt_zpow_succ_log_self hbase x

/-- At least the first power of the base that has so many digits before its last place. -/
theorem zpow_le_significant (hdigits : 0 < digits) : (base : α) ^ Int.log base x ≤ significant base digits x := by
  have hpos := base_pos (α := α) hbase (lastPlace base digits x)
  have hne : (base : α) ≠ 0 := by exact_mod_cast (Nat.zero_lt_of_lt hbase).ne'
  have hlow := (lastPlace_bounds hbase hx digits).1
  have hexponent : ((digits - 1 : ℕ) : ℤ) = digits - 1 := by omega
  rw [← hexponent, zpow_natCast] at hlow
  have hround : ((base ^ (digits - 1) : ℕ) : ℤ) ≤ round (x / (base : α) ^ lastPlace base digits x) := by
    rw [round_eq, Int.le_floor]
    push_cast
    linarith
  have hcast : (base : α) ^ (digits - 1) ≤ round (x / (base : α) ^ lastPlace base digits x) := by
    have := (Int.cast_le (R := α)).mpr hround
    push_cast at this
    exact this
  have hlog : Int.log base x = ((digits - 1 : ℕ) : ℤ) + lastPlace base digits x := by
    unfold lastPlace
    omega
  rw [significant, hlog, zpow_add₀ hne, zpow_natCast]
  exact mul_le_mul_of_nonneg_right hcast hpos.le

theorem round_lastPlace_le (digits : ℕ) : round (x / (base : α) ^ lastPlace base digits x) ≤ ((base ^ digits : ℕ) : ℤ) := by
  have hhigh := (lastPlace_bounds hbase hx digits).2
  rw [zpow_natCast] at hhigh
  rw [round_eq, ← Int.lt_add_one_iff, Int.floor_lt]
  push_cast
  linarith

/-- At most the next power of the base. -/
theorem significant_le_zpow : significant base digits x ≤ (base : α) ^ (Int.log base x + 1) := by
  have hpos := base_pos (α := α) hbase (lastPlace base digits x)
  have hne : (base : α) ≠ 0 := by exact_mod_cast (Nat.zero_lt_of_lt hbase).ne'
  have hcast : (round (x / (base : α) ^ lastPlace base digits x) : α) ≤ (base : α) ^ digits := by
    have := (Int.cast_le (R := α)).mpr (round_lastPlace_le hbase hx digits)
    push_cast at this
    exact this
  have hlog : Int.log base x + 1 = (digits : ℤ) + lastPlace base digits x := by
    unfold lastPlace
    ring
  rw [significant, hlog, zpow_add₀ hne, zpow_natCast]
  exact mul_le_mul_of_nonneg_right hcast hpos.le

end

section
variable (hbase : 1 < base) (hdigits : 0 < digits)
include hbase hdigits

/-- Greater numbers round to greater ones. -/
theorem significant_mono (hx : 0 ≤ x) (h : x ≤ y) : significant base digits x ≤ significant base digits y := by
  rcases hx.eq_or_lt with rfl | hx
  · rw [significant_zero]
    exact significant_nonneg hbase h
  · have hne : (1 : α) ≤ base := by exact_mod_cast hbase.le
    rcases (Int.log_mono_right (b := base) hx h).eq_or_lt with hsame | hless
    · have hplace : lastPlace base digits x = lastPlace base digits y := by
        rw [lastPlace, lastPlace, hsame]
      have hpos := base_pos (α := α) hbase (lastPlace base digits y)
      rw [significant, significant, hplace]
      apply mul_le_mul_of_nonneg_right _ hpos.le
      have hround : round (x / (base : α) ^ lastPlace base digits y) ≤
          round (y / (base : α) ^ lastPlace base digits y) := by
        rw [round_eq, round_eq]
        exact Int.floor_le_floor (add_le_add_left (div_le_div_of_nonneg_right h hpos.le) _)
      exact_mod_cast hround
    · calc significant base digits x ≤ (base : α) ^ (Int.log base x + 1) := significant_le_zpow hbase hx
        _ ≤ (base : α) ^ Int.log base y := zpow_le_zpow_right₀ hne hless
        _ ≤ significant base digits y := zpow_le_significant hbase (hx.trans_le h) hdigits

end

/-- A number's magnitude, rounded to so many digits and limited, with its sign. -/
def limited (base digits : ℕ) (limit x : α) : α :=
  if x < 0 then -min (significant base digits (-x)) limit else min (significant base digits x) limit

theorem limited_mono (hbase : 1 < base) (hdigits : 0 < digits) {limit : α} (hlimit : 0 ≤ limit) (h : x ≤ y) :
    limited base digits limit x ≤ limited base digits limit y := by
  have hnonneg : ∀ {z : α}, 0 ≤ z → 0 ≤ min (significant base digits z) limit := fun hz =>
    le_min (significant_nonneg hbase hz) hlimit
  unfold limited
  split
  · next hx =>
    split
    · next hy =>
      exact neg_le_neg (min_le_min_right _ (significant_mono hbase hdigits (neg_nonneg.mpr hy.le) (neg_le_neg h)))
    · next hy => exact (neg_nonpos.mpr (hnonneg (neg_nonneg.mpr hx.le))).trans (hnonneg (not_lt.mp hy))
  · next hx =>
    have hx := not_lt.mp hx
    rw [if_neg (not_lt.mpr (hx.trans h))]
    exact min_le_min_right _ (significant_mono hbase hdigits hx h)

end

end Figures
