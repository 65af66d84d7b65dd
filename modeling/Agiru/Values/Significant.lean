import Agiru.Values.Division

/-! `AlDecimalArithmetic`: decimals of eighteen significant digits.

The digits behind the eighteenth are dropped and rounded half away from zero; where that takes digits before the
point, zeros take their place, and the mantissa may then be too great (`normalize_rational`). -/
namespace Agiru
open Figures

variable {units k : Nat}

/-- `kAlSignificantLimit`. -/
def alSignificantLimit : Nat := 999999999999999999

/-- The power of ten by which a mantissa is divided until eighteen digits are left, and its exponent. -/
def reduced (units divisor dropped : Nat) : Nat × Nat :=
  if h : alSignificantLimit < units / divisor then reduced units (divisor * 10) (dropped + 1)
  else (divisor, dropped)
termination_by units / divisor
decreasing_by
  rw [← Nat.div_div_eq_div_mul]
  exact Nat.div_lt_self (Nat.zero_lt_of_lt h) (by decide)

/-- `AlMaximumUnits`. -/
def alMaximumUnits : Nat :=
  let divisor := (reduced maxUnits 1 0).1
  maxUnits / divisor * divisor

/-- The mantissa without the digits behind the eighteenth, rounded half up. -/
def retained (units divisor : Nat) : Nat :=
  let retained := units / divisor
  if divisor / 2 ≤ units % divisor then retained + 1 else retained

/-- Zeros for the digits dropped before the point, as far as there is room. -/
def reexpanded (retained zeros : Nat) : Nat :=
  let units := u128 (retained * 10 ^ zeros)
  if maxUnits < units then alMaximumUnits else units

/-! ### The digits dropped -/

/-- The exponent of the power of ten that leaves eighteen digits. -/
def DropsTo (units dropped : Nat) : Prop :=
  units / 10 ^ dropped ≤ alSignificantLimit ∧ ∀ fewer < dropped, alSignificantLimit < units / 10 ^ fewer

theorem reduced_spec {dropped : Nat} (h : ∀ fewer < dropped, alSignificantLimit < units / 10 ^ fewer) :
    ∃ k, reduced units (10 ^ dropped) dropped = (10 ^ k, k) ∧ DropsTo units k := by
  induction hleft : units / 10 ^ dropped using Nat.strong_induction_on generalizing dropped with
  | _ left ih =>
    rw [reduced]
    split
    · next hmore =>
      have hless : units / 10 ^ (dropped + 1) < left := by
        rw [pow_succ, ← Nat.div_div_eq_div_mul, ← hleft]
        exact Nat.div_lt_self (Nat.zero_lt_of_lt hmore) (by decide)
      apply ih _ hless _ rfl
      intro fewer hfewer
      rcases Nat.lt_succ_iff_lt_or_eq.mp hfewer with hbelow | rfl
      · exact h fewer hbelow
      · exact hmore
    · next hdone => exact ⟨dropped, rfl, Nat.le_of_not_lt hdone, h⟩

theorem reduced_drops (units : Nat) : ∃ k, reduced units 1 0 = (10 ^ k, k) ∧ DropsTo units k :=
  reduced_spec fun fewer hfewer => absurd hfewer (Nat.not_lt_zero fewer)

theorem DropsTo.unique {l : Nat} (hk : DropsTo units k) (hl : DropsTo units l) : k = l := by
  rcases Nat.lt_trichotomy k l with hless | heq | hmore
  · exact absurd hk.1 (Nat.not_le_of_gt (hl.2 k hless))
  · exact heq
  · exact absurd hl.1 (Nat.not_le_of_gt (hk.2 l hmore))

theorem reduced_eq (h : DropsTo units k) : reduced units 1 0 = (10 ^ k, k) := by
  obtain ⟨l, hreduced, hl⟩ := reduced_drops units
  rw [hreduced, hl.unique h]

/-- A mantissa has at most eleven digits too many. -/
theorem DropsTo.le (h : DropsTo units k) (hunits : units ≤ maxUnits) : k ≤ 11 := by
  by_contra hmore
  have hgreat := h.2 11 (by omega)
  have hlimit : maxUnits / 10 ^ 11 ≤ alSignificantLimit := by decide
  exact absurd ((Nat.div_le_div_right hunits).trans hlimit) (Nat.not_le_of_gt hgreat)

/-- The greatest mantissa of eighteen digits and zeros. -/
theorem alMaximumUnits_eq : alMaximumUnits = 792281625142643375 * 10 ^ 11 := by
  have hdrops : DropsTo maxUnits 11 := by
    refine ⟨by decide, fun fewer hfewer => ?_⟩
    have hten : alSignificantLimit < maxUnits / 10 ^ 10 := by decide
    exact hten.trans_le (Nat.div_le_div_left (Nat.pow_le_pow_right (by decide) (by omega)) (Nat.pow_pos (by decide)))
  rw [alMaximumUnits, reduced_eq hdrops]
  decide

theorem alMaximumUnits_le : alMaximumUnits ≤ maxUnits := by
  rw [alMaximumUnits_eq]
  decide

theorem retained_le (h : DropsTo units k) : retained units (10 ^ k) ≤ 10 ^ 18 := by
  have hlimit : alSignificantLimit + 1 = 10 ^ 18 := by decide
  have hquotient := h.1
  unfold retained
  dsimp only
  split <;> omega

theorem retained_fits (units : Nat) : retained units (reduced units 1 0).1 ≤ maxUnits := by
  obtain ⟨k, hreduced, hk⟩ := reduced_drops units
  rw [hreduced]
  exact (retained_le hk).trans (by decide)

theorem reexpanded_fits (retained zeros : Nat) : reexpanded retained zeros ≤ maxUnits := by
  unfold reexpanded
  dsimp only
  split
  · exact alMaximumUnits_le
  · next h => exact Nat.le_of_not_lt h

namespace AlDecimalArithmetic

/-- `Normalize`. -/
def normalize (value : Decimal) : Decimal :=
  if value.units ≤ alSignificantLimit then value
  else
    let divisor := (reduced value.units 1 0).1
    let dropped := (reduced value.units 1 0).2
    if dropped ≤ value.scale then
      (Decimal.make ⟨retained value.units divisor, value.scale - dropped, retained_fits value.units,
        (Nat.sub_le _ _).trans value.places⟩ value.negative).trimmed
    else
      Decimal.make ⟨reexpanded (retained value.units divisor) (dropped - value.scale), 0,
        reexpanded_fits _ _, Nat.zero_le _⟩ value.negative

/-- `Compare`. -/
def compare (left right : Decimal) : Ordering := (normalize left).compare (normalize right)

/-! ### The number that is left -/

/-- Half up, of digits dropped. -/
theorem retained_round (units : Nat) (hk : 0 < k) : round ((units : ℚ) / 10 ^ k) = (retained units (10 ^ k) : ℕ) := by
  have hten : (0 : ℚ) < 10 ^ k := by positivity
  have hsplit : (units : ℚ) = (units / 10 ^ k : ℕ) * 10 ^ k + (units % 10 ^ k : ℕ) := by
    exact_mod_cast (Nat.div_add_mod' units (10 ^ k)).symm
  have hless : units % 10 ^ k < 10 ^ k := Nat.mod_lt _ (Nat.pow_pos (by decide))
  have heven : 10 ^ k = 2 * (10 ^ k / 2) := by
    obtain ⟨j, rfl⟩ := Nat.exists_eq_succ_of_ne_zero hk.ne'
    rw [Nat.succ_eq_add_one, pow_succ]
    omega
  have hquotient : (units : ℚ) / 10 ^ k = (units / 10 ^ k : ℕ) + (units % 10 ^ k : ℕ) / 10 ^ k := by
    rw [hsplit, add_div, mul_div_cancel_right₀ _ hten.ne']
  have hbelow : ((units % 10 ^ k : ℕ) : ℚ) / 10 ^ k < 1 := by
    rw [div_lt_one hten]
    exact_mod_cast hless
  have hnonneg : (0 : ℚ) ≤ ((units % 10 ^ k : ℕ) : ℚ) / 10 ^ k := by positivity
  rw [round_eq, Int.floor_eq_iff, hquotient, Int.cast_natCast]
  unfold retained
  dsimp only
  split
  · next hhalf =>
    have hmore : (1 : ℚ) / 2 ≤ ((units % 10 ^ k : ℕ) : ℚ) / 10 ^ k := by
      rw [div_le_div_iff₀ (by norm_num) hten, one_mul]
      have : 10 ^ k ≤ units % 10 ^ k * 2 := by omega
      exact_mod_cast this
    push_cast
    constructor <;> linarith
  · next hhalf =>
    have hmore : ((units % 10 ^ k : ℕ) : ℚ) / 10 ^ k < 1 / 2 := by
      rw [div_lt_div_iff₀ hten (by norm_num), one_mul]
      have : units % 10 ^ k * 2 < 10 ^ k := by omega
      exact_mod_cast this
    constructor <;> linarith

/-- The eighteenth digit's place is where so many digits are dropped. -/
theorem lastPlace_eq (h : DropsTo units k) (hk : 0 < k) (scale : Nat) :
    lastPlace 10 18 ((units : ℚ) / 10 ^ scale) = k - scale := by
  have hlimit : alSignificantLimit + 1 = 10 ^ 18 := by decide
  have hlow : 10 ^ (k + 17) ≤ units := by
    have hfewer : 10 ^ 18 ≤ units / 10 ^ (k - 1) := hlimit ▸ h.2 (k - 1) (by omega)
    rw [Nat.le_div_iff_mul_le (Nat.pow_pos (by decide)), ← pow_add] at hfewer
    rwa [show k + 17 = 18 + (k - 1) by omega]
  have hhigh : units < 10 ^ (k + 18) := by
    have hdone : units / 10 ^ k < 10 ^ 18 := Nat.lt_of_le_of_lt h.1 (by decide)
    rwa [Nat.div_lt_iff_lt_mul (Nat.pow_pos (by decide)), ← pow_add, Nat.add_comm] at hdone
  have hunits : (0 : ℚ) < units := by exact_mod_cast Nat.lt_of_lt_of_le (Nat.pow_pos (by decide)) hlow
  have hlog := log_div_pow (show 1 < 10 by decide) hunits scale
  rw [Int.log_natCast, Nat.log_eq_of_pow_le_of_lt_pow hlow hhigh, Nat.cast_ofNat] at hlog
  rw [lastPlace, hlog]
  push_cast
  ring

/-- The magnitude of eighteen digits. -/
theorem significant_retained (h : DropsTo units k) (hk : 0 < k) (scale : Nat) :
    significant 10 18 ((units : ℚ) / 10 ^ scale) =
      (retained units (10 ^ k) : ℕ) * (10 : ℚ) ^ ((k : ℤ) - scale) := by
  have hten : (10 : ℚ) ≠ 0 := by norm_num
  have hunits : (units : ℚ) / 10 ^ scale / 10 ^ ((k : ℤ) - scale) = units / 10 ^ k := by
    rw [div_div, ← zpow_natCast, ← zpow_add₀ hten, add_sub_cancel, zpow_natCast]
  rw [significant, lastPlace_eq h hk, Nat.cast_ofNat, hunits, retained_round units hk, Int.cast_natCast]

/-- A mantissa of so few digits is kept. -/
theorem significant_few (h : units ≤ alSignificantLimit) (scale : Nat) :
    significant 10 18 ((units : ℚ) / 10 ^ scale) = units / 10 ^ scale := by
  rcases Nat.eq_zero_or_pos units with rfl | hpos
  · rw [Nat.cast_zero, zero_div, significant_zero]
  · have hten : (10 : ℚ) ≠ 0 := by norm_num
    have hscale : (0 : ℚ) < 10 ^ scale := by positivity
    have hmagnitude : (0 : ℚ) < units / 10 ^ scale := by positivity
    have hless : units < 10 ^ 18 := Nat.lt_of_le_of_lt h (by decide)
    have hlog : Int.log 10 ((units : ℚ) / 10 ^ scale) < 18 - scale := by
      rw [← Int.lt_zpow_iff_log_lt (by decide) hmagnitude, div_lt_iff₀ hscale, ← zpow_natCast, Nat.cast_ofNat,
        ← zpow_add₀ hten, sub_add_cancel]
      exact_mod_cast hless
    have hplace : lastPlace 10 18 ((units : ℚ) / 10 ^ scale) ≤ -scale := by
      unfold lastPlace
      push_cast
      omega
    obtain ⟨zeros, hzeros⟩ := Int.le.dest hplace
    apply significant_of_whole (by decide) (n := units * 10 ^ zeros)
    push_cast
    rw [mul_assoc, ← zpow_natCast 10 zeros, ← zpow_add₀ hten, add_comm, hzeros, zpow_neg, zpow_natCast, div_eq_mul_inv]

/-- There is room for the zeros where there is room for the number. -/
theorem reexpanded_eq {retained zeros : Nat} (hretained : retained ≤ 10 ^ 18) (hzeros : zeros ≤ 11) :
    reexpanded retained zeros = min (retained * 10 ^ zeros) alMaximumUnits := by
  have hpow : 10 ^ zeros ≤ 10 ^ 11 := Nat.pow_le_pow_right (by decide) hzeros
  have hroom : retained * 10 ^ zeros < 2 ^ 128 :=
    Nat.lt_of_le_of_lt (Nat.mul_le_mul hretained hpow) (by decide)
  have hmaximum := alMaximumUnits_le
  unfold reexpanded
  dsimp only
  rw [U192.u128_of_lt hroom]
  split
  · next hover => rw [min_eq_right (hmaximum.trans hover.le)]
  · next hfits =>
    rw [min_eq_left]
    rw [alMaximumUnits_eq]
    rcases Nat.lt_or_eq_of_le hzeros with hfew | rfl
    · have hless : 10 ^ zeros ≤ 10 ^ 10 := Nat.pow_le_pow_right (by decide) (by omega)
      exact (Nat.mul_le_mul hretained hless).trans (by decide)
    · have hmax : maxUnits < 792281625142643376 * 10 ^ 11 := by decide
      omega

theorem limited_signed {negative : Bool} {x limit : ℚ} (hx : 0 ≤ x) (hlimit : 0 ≤ limit) :
    limited 10 18 limit (sign negative * x) = sign negative * min (significant 10 18 x) limit := by
  unfold limited
  cases negative with
  | false => rw [sign, if_neg Bool.false_ne_true, one_mul, one_mul, if_neg (not_lt.mpr hx)]
  | true =>
    rw [sign, if_pos rfl, neg_one_mul, neg_one_mul]
    rcases hx.eq_or_lt with rfl | hpos
    · rw [neg_zero, if_neg (lt_irrefl _), significant_zero, min_eq_left hlimit, neg_zero]
    · rw [if_pos (neg_lt_zero.mpr hpos), neg_neg]

/-- A decimal is normalised to its number, rounded to eighteen digits. -/
theorem normalize_rational (x : Decimal) :
    (normalize x).rational = limited 10 18 (alMaximumUnits : ℚ) x.rational := by
  rw [x.rational_signed, limited_signed (by positivity) (by positivity)]
  unfold normalize
  split
  · next hfew =>
    have hten : (1 : ℚ) ≤ 10 ^ x.scale := one_le_pow₀ (by norm_num)
    have hless : (x.units : ℚ) / 10 ^ x.scale ≤ alMaximumUnits := by
      have hunits : x.units ≤ alMaximumUnits := hfew.trans (by rw [alMaximumUnits_eq]; decide)
      exact (div_le_self (Nat.cast_nonneg _) hten).trans (by exact_mod_cast hunits)
    rw [significant_few hfew, min_eq_left hless, x.rational_signed]
  · next hmany =>
    obtain ⟨k, hreduced, hk⟩ := reduced_drops x.units
    have hpos : 0 < k := by
      rcases Nat.eq_zero_or_pos k with rfl | hpos
      · have hfew := hk.1
        rw [pow_zero, Nat.div_one] at hfew
        exact absurd hfew hmany
      · exact hpos
    have hretained := retained_le hk
    rw [significant_retained hk hpos]
    simp only [hreduced]
    have hten : (10 : ℚ) ≠ 0 := by norm_num
    split
    · next hplaces =>
      rw [Decimal.trimmed_rational, make_rational]
      have hexponent : ((k : ℤ) - x.scale) = -((x.scale - k : ℕ) : ℤ) := by omega
      rw [hexponent, zpow_neg, zpow_natCast, ← div_eq_mul_inv, min_eq_left]
      have hone : (1 : ℚ) ≤ 10 ^ (x.scale - k) := one_le_pow₀ (by norm_num)
      have hle : retained x.units (10 ^ k) ≤ alMaximumUnits := hretained.trans (by rw [alMaximumUnits_eq]; decide)
      exact (div_le_self (Nat.cast_nonneg _) hone).trans (by exact_mod_cast hle)
    · next hplaces =>
      have hzeros : k - x.scale ≤ 11 := (Nat.sub_le _ _).trans (hk.le x.fits)
      have hexponent : ((k : ℤ) - x.scale) = ((k - x.scale : ℕ) : ℤ) := by omega
      rw [make_rational, pow_zero, div_one, hexponent, zpow_natCast]
      dsimp only
      rw [reexpanded_eq hretained hzeros]
      push_cast
      rfl

/-! ### Normalising again -/

/-- What normalising leaves: few digits, or zeros before the point. -/
def Normal (d : Decimal) : Prop :=
  d.units ≤ alSignificantLimit ∨ d.scale = 0 ∧ ∃ n zeros, n < 10 ^ 18 ∧ d.units = n * 10 ^ zeros

theorem make_self (d : Decimal) : Decimal.make ⟨d.units, d.scale, d.fits, d.places⟩ d.negative = d := by
  have hsigned := d.signed
  unfold Decimal.make
  congr 1
  cases hnegative : d.negative with
  | false => rfl
  | true => exact decide_eq_true (hsigned hnegative)

theorem normalize_of_normal {d : Decimal} (h : Normal d) : normalize d = d := by
  unfold normalize
  split
  · rfl
  · next hmany =>
    obtain ⟨hscale, n, zeros, hn, hunits⟩ := h.resolve_left hmany
    obtain ⟨k, hreduced, hk⟩ := reduced_drops d.units
    have hpositive : 0 < k := by
      rcases Nat.eq_zero_or_pos k with rfl | hpositive
      · have hfew := hk.1
        rw [pow_zero, Nat.div_one] at hfew
        exact absurd hfew hmany
      · exact hpositive
    -- the zeros are dropped, and they come back
    have hdropped : k ≤ zeros := by
      by_contra hmore
      have hgreat := hk.2 zeros (Nat.lt_of_not_le hmore)
      rw [hunits, Nat.mul_div_cancel _ (Nat.pow_pos (by decide))] at hgreat
      exact absurd hn (Nat.not_lt.mpr hgreat)
    have hdvd : 10 ^ k ∣ d.units := hunits ▸ (Nat.pow_dvd_pow 10 hdropped).mul_left n
    have hhalf : 0 < 10 ^ k / 2 := by
      obtain ⟨j, rfl⟩ := Nat.exists_eq_succ_of_ne_zero hpositive.ne'
      have := Nat.pow_pos (n := j) (by decide : 0 < 10)
      rw [Nat.succ_eq_add_one, pow_succ]
      omega
    have hretained : retained d.units (10 ^ k) = d.units / 10 ^ k := by
      unfold retained
      rw [Nat.mod_eq_zero_of_dvd hdvd, if_neg (Nat.not_le_of_gt hhalf)]
    have hexpanded : reexpanded (d.units / 10 ^ k) (k - 0) = d.units := by
      have hroom : d.units < 2 ^ 128 := Nat.lt_of_le_of_lt d.fits (by decide)
      unfold reexpanded
      rw [Nat.sub_zero, Nat.div_mul_cancel hdvd, U192.u128_of_lt hroom, if_neg (Nat.not_lt.mpr d.fits)]
    have hplaces : ¬ k ≤ 0 := Nat.not_le_of_gt hpositive
    simp only [hreduced, hretained, hscale, hexpanded, if_neg hplaces]
    conv_rhs => rw [← make_self d]
    simp only [hscale]

theorem normal_normalize (x : Decimal) : Normal (normalize x) := by
  unfold normalize
  split
  · next hfew => exact .inl hfew
  · obtain ⟨k, hreduced, hk⟩ := reduced_drops x.units
    have hretained := retained_le hk
    have hlimit : alSignificantLimit + 1 = 10 ^ 18 := by decide
    simp only [hreduced]
    split
    · generalize hmade : Decimal.make _ x.negative = made
      have hunits : made.units = retained x.units (10 ^ k) := hmade ▸ rfl
      have hmul := stripTrailingZeros_mul made.units made.scale
      change made.trimmed.units * 10 ^ _ = made.units at hmul
      generalize made.scale - (stripTrailingZeros made.units made.scale).2 = stripped at hmul
      rw [hunits] at hmul
      rcases Nat.eq_zero_or_pos stripped with rfl | hstripped
      · rw [pow_zero, Nat.mul_one] at hmul
        rcases Nat.lt_or_eq_of_le hretained with hless | heq
        · left
          omega
        · -- a carry through all digits: its zeros are stripped as far as the point
          rw [heq] at hmul
          refine .inr ⟨(made.trimmed_done).resolve_right ?_, 1, 18, by decide, by rw [hmul, Nat.one_mul]⟩
          rw [hmul]
          decide
      · left
        have hten : 10 ≤ 10 ^ stripped := Nat.le_self_pow hstripped.ne' 10
        have hle := Nat.mul_le_mul_left made.trimmed.units hten
        omega
    · next hplaces =>
      right
      have hzeros : k - x.scale ≤ 11 := (Nat.sub_le _ _).trans (hk.le x.fits)
      refine ⟨rfl, ?_⟩
      show ∃ n zeros, n < 10 ^ 18 ∧ reexpanded (retained x.units (10 ^ k)) (k - x.scale) = n * 10 ^ zeros
      rw [reexpanded_eq hretained hzeros]
      rcases le_total (retained x.units (10 ^ k) * 10 ^ (k - x.scale)) alMaximumUnits with hle | hle
      · rw [min_eq_left hle]
        rcases Nat.lt_or_eq_of_le hretained with hless | heq
        · exact ⟨_, _, hless, rfl⟩
        · exact ⟨1, 18 + (k - x.scale), by decide, by rw [heq, pow_add, Nat.one_mul]⟩
      · rw [min_eq_right hle, alMaximumUnits_eq]
        exact ⟨_, 11, by decide, rfl⟩

theorem normalize_digits (x : Decimal) :
    ∃ n : ℕ, ∃ place : ℤ, n < 10 ^ 18 ∧ |(normalize x).rational| = n * 10 ^ place := by
  rcases normal_normalize x with hfew | ⟨hscale, n, zeros, hn, hunits⟩
  · refine ⟨(normalize x).units, -(normalize x).scale, Nat.lt_of_le_of_lt hfew (by decide), ?_⟩
    rw [Decimal.abs_rational, zpow_neg, zpow_natCast, div_eq_mul_inv]
  · refine ⟨n, zeros, hn, ?_⟩
    rw [Decimal.abs_rational, hscale, hunits, pow_zero, div_one, zpow_natCast]
    push_cast
    rfl

theorem compare_eq : compare = compareOn fun d => (normalize d).value := by
  funext left right
  exact Decimal.compare_eq _ _

instance : Std.TransCmp compare := by
  rw [compare_eq]
  infer_instance

/-- **Normalising is rounding to eighteen digits.** A decimal is normalised to its number, rounded half away from
zero at the eighteenth digit and limited to the greatest such mantissa; so decimals of one number are normalised to
one number, greater ones to greater ones, and a normalised decimal to itself. Comparing so is a total preorder. -/
theorem normalize_well_behaved :
    (∀ x : Decimal, (normalize x).rational = limited 10 18 (alMaximumUnits : ℚ) x.rational) ∧
      (∀ x y : Decimal, x.rational = y.rational → (normalize x).rational = (normalize y).rational) ∧
      (∀ x : Decimal, (normalize x).units ≤ maxUnits ∧
        ∃ n : ℕ, ∃ place : ℤ, n < 10 ^ 18 ∧ |(normalize x).rational| = n * 10 ^ place) ∧
      (∀ x : Decimal, normalize (normalize x) = normalize x) ∧
      (∀ x y : Decimal, x.rational ≤ y.rational → (normalize x).rational ≤ (normalize y).rational) ∧
      Std.TransCmp compare := by
  refine ⟨normalize_rational, fun x y h => ?_, fun x => ⟨(normalize x).fits, normalize_digits x⟩,
    fun x => normalize_of_normal (normal_normalize x), fun x y h => ?_, inferInstance⟩
  · rw [normalize_rational, normalize_rational, h]
  · rw [normalize_rational, normalize_rational]
    exact limited_mono (by decide) (by decide) (Nat.cast_nonneg _) h

end AlDecimalArithmetic
end Agiru
