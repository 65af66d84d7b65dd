import Agiru.Values.Arithmetic

/-! Division: digit after digit, until nothing remains, 28 places are reached or the mantissa is full.

What remains then decides, with the digits that have to be dropped, how the quotient is rounded; so it is
rounded once. -/
namespace Agiru
open Rounding

variable {d : Decimal}

/-- `DivisionTail`. -/
def divisionTail (remainder divisor : Nat) : RoundingTail :=
  let twice := u128 (remainder * 2)
  if divisor ≤ twice then RoundingTail.prepend {} (5 + if divisor < twice then 1 else 0)
  else RoundingTail.append {} (if remainder ≠ 0 then 1 else 0)

/-- The digits of a quotient so far, and whether any had to be added for a remainder. -/
structure Expansion where
  quotient : Nat
  remainder : Nat
  scale : Int
  expanded : Bool

/-- The loop of `operator/=`. -/
def expand (denominator : Nat) (e : Expansion) : Except DecimalError Expansion :=
  if h : e.scale < maxScale ∧ (e.scale < 0 ∨ e.remainder ≠ 0) then
    let numerator := u128 (e.remainder * 10)
    let next := u128 (e.quotient * 10 + numerator / denominator)
    if maxUnits < next then
      if e.scale < 0 then .error .scaling else .ok e
    else
      let rest := numerator % denominator
      expand denominator ⟨next, rest, e.scale + 1, e.expanded || rest ≠ 0⟩
  else .ok e
termination_by (maxScale - e.scale).toNat
decreasing_by
  have := h.1
  show (maxScale - (e.scale + 1)).toNat < (maxScale - e.scale).toNat
  omega

/-- `StripTrailingZeros`: the mantissa and the scale. -/
def stripTrailingZeros (units : Nat) : Nat → Nat × Nat
  | 0 => (units, 0)
  | scale + 1 => if units % 10 = 0 then stripTrailingZeros (units / 10) scale else (units, scale + 1)

theorem stripTrailingZeros_le (units scale : Nat) :
    (stripTrailingZeros units scale).1 ≤ units ∧ (stripTrailingZeros units scale).2 ≤ scale := by
  induction scale generalizing units with
  | zero => exact ⟨le_rfl, le_rfl⟩
  | succ scale ih =>
    rw [stripTrailingZeros]
    split
    · exact ⟨(ih _).1.trans (Nat.div_le_self _ _), Nat.le_succ_of_le (ih _).2⟩
    · exact ⟨le_rfl, le_rfl⟩

/-- Zeros are taken away, and places with them. -/
theorem stripTrailingZeros_mul (units scale : Nat) :
    (stripTrailingZeros units scale).1 * 10 ^ (scale - (stripTrailingZeros units scale).2) = units := by
  induction scale generalizing units with
  | zero => rw [stripTrailingZeros, Nat.sub_self, pow_zero, Nat.mul_one]
  | succ scale ih =>
    rw [stripTrailingZeros]
    split
    · next hzero =>
      have hle := (stripTrailingZeros_le (units / 10) scale).2
      rw [Nat.succ_sub hle, pow_succ, ← Nat.mul_assoc, ih, Nat.div_mul_cancel (Nat.dvd_of_mod_eq_zero hzero)]
    · rw [Nat.sub_self, pow_zero, Nat.mul_one]

/-- None is left before the point. -/
theorem stripTrailingZeros_done (units scale : Nat) :
    (stripTrailingZeros units scale).2 = 0 ∨ (stripTrailingZeros units scale).1 % 10 ≠ 0 := by
  induction scale generalizing units with
  | zero => exact .inl rfl
  | succ scale ih =>
    rw [stripTrailingZeros]
    split
    · exact ih _
    · next hzero => exact .inr hzero

theorem stripTrailingZeros_eq_zero {units scale : Nat} : (stripTrailingZeros units scale).1 = 0 ↔ units = 0 := by
  constructor
  · intro h
    rw [← stripTrailingZeros_mul units scale, h, Nat.zero_mul]
  · intro h
    exact Nat.le_zero.mp (h ▸ (stripTrailingZeros_le units scale).1)

namespace Decimal

/-- `Trimmed`. -/
def trimmed (d : Decimal) : Decimal :=
  let stripped := stripTrailingZeros d.units d.scale
  { units := stripped.1
    scale := if stripped.1 = 0 then 0 else stripped.2
    negative := d.negative
    fits := (stripTrailingZeros_le d.units d.scale).1.trans d.fits
    places := by
      split
      · exact Nat.zero_le _
      · exact (stripTrailingZeros_le d.units d.scale).2.trans d.places
    signed := fun h => stripTrailingZeros_eq_zero.not.mpr (d.signed h) }

/-- `operator/=`. -/
def divide (a b : Decimal) : Except DecimalError Decimal :=
  if b.units = 0 then .error .divisionByZero
  else do
    let remainder := a.units % b.units
    let e ← expand b.units ⟨a.units / b.units, remainder, a.scale - b.scale, remainder ≠ 0⟩
    let m ← (U192.ofUnits e.quotient).fitToUnits (divisionTail e.remainder b.units) e.scale.toNat
    let quotient := make m (a.negative != b.negative)
    return if e.expanded then quotient.trimmed else quotient

theorem trimmed_rational (d : Decimal) : d.trimmed.rational = d.rational := by
  have hmul := stripTrailingZeros_mul d.units d.scale
  have hle := (stripTrailingZeros_le d.units d.scale).2
  have hten : (10 : ℚ) ^ (d.scale - (stripTrailingZeros d.units d.scale).2) ≠ 0 := pow_ne_zero _ (by norm_num)
  have hscale : (10 : ℚ) ^ d.scale = 10 ^ (stripTrailingZeros d.units d.scale).2 *
      10 ^ (d.scale - (stripTrailingZeros d.units d.scale).2) := by
    rw [← pow_add, Nat.add_sub_cancel' hle]
  rw [rational_signed, rational_signed]
  show sign d.negative * ((stripTrailingZeros d.units d.scale).1 /
    10 ^ (if (stripTrailingZeros d.units d.scale).1 = 0 then 0 else (stripTrailingZeros d.units d.scale).2)) = _
  congr 1
  by_cases hzero : (stripTrailingZeros d.units d.scale).1 = 0
  · rw [hzero, stripTrailingZeros_eq_zero.mp hzero]
    simp
  · rw [if_neg hzero]
    conv_rhs => rw [← hmul, hscale]
    push_cast
    rw [mul_div_mul_right _ _ hten]

theorem trimmed_done (d : Decimal) : d.trimmed.scale = 0 ∨ d.trimmed.units % 10 ≠ 0 := by
  rcases stripTrailingZeros_done d.units d.scale with hscale | hunits
  · left
    show (if _ then 0 else (stripTrailingZeros d.units d.scale).2) = 0
    rw [hscale, ite_self]
  · exact .inr hunits

end Decimal

/-! ### The expansion -/

/-- The number whose digits these are, and what remains of it. -/
def Expansion.value (e : Expansion) (denominator : Nat) : ℚ :=
  (e.quotient * denominator + e.remainder : ℕ) / denominator * 10 ^ (-e.scale)

/-- What holds of the digits: the remainder is less than the divisor, and the quotient fits. -/
structure Expansion.Proper (e : Expansion) (denominator : Nat) : Prop where
  less : e.remainder < denominator
  fits : e.quotient ≤ maxUnits
  places : e.scale ≤ maxScale

/-- A digit more is asked for. -/
def Expansion.Asks (e : Expansion) : Prop := e.scale < maxScale ∧ (e.scale < 0 ∨ e.remainder ≠ 0)

/-- The digit that comes next. -/
def Expansion.next (e : Expansion) (denominator : Nat) : Expansion :=
  let rest := e.remainder * 10 % denominator
  ⟨e.quotient * 10 + e.remainder * 10 / denominator, rest, e.scale + 1, e.expanded || rest ≠ 0⟩

/-- There is no room for it. -/
def Expansion.Over (e : Expansion) (denominator : Nat) : Prop := maxUnits < (e.next denominator).quotient

section
variable {denominator : Nat} {e : Expansion}

theorem Expansion.next_value : (e.next denominator).value denominator = e.value denominator := by
  have hdigits : (e.next denominator).quotient * denominator + (e.next denominator).remainder =
      (e.quotient * denominator + e.remainder) * 10 := by
    have hdivision := Nat.div_add_mod' (e.remainder * 10) denominator
    show (e.quotient * 10 + e.remainder * 10 / denominator) * denominator + e.remainder * 10 % denominator = _
    rw [Nat.add_mul, Nat.add_assoc, hdivision]
    ring
  have hscale : (10 : ℚ) ^ (-(e.scale + 1)) * 10 = 10 ^ (-e.scale) := by
    rw [← zpow_add_one₀ (by norm_num)]
    congr 1
    ring
  unfold value
  rw [hdigits, ← hscale]
  show _ / _ * 10 ^ (-(e.scale + 1)) = _
  push_cast
  ring

/-- The digits before the remainder are not more than the number. -/
theorem Expansion.quotient_le (hpositive : 0 < denominator) : (e.quotient : ℚ) ≤ e.value denominator * 10 ^ e.scale := by
  have hten : (10 : ℚ) ^ e.scale ≠ 0 := zpow_ne_zero _ (by norm_num)
  have hpos : (0 : ℚ) < denominator := by exact_mod_cast hpositive
  rw [value, mul_assoc, ← zpow_add₀ (by norm_num), neg_add_cancel, zpow_zero, mul_one, le_div_iff₀ hpos]
  exact_mod_cast Nat.le_add_right _ _

/-- Where nothing remains, the digits are the number. -/
theorem Expansion.value_whole (e : Expansion) (hpositive : 0 < denominator) (hbehind : 0 ≤ e.scale)
    (hnone : e.remainder = 0) : e.value denominator * 10 ^ e.scale.toNat = e.quotient := by
  have hscale : (e.scale.toNat : Int) = e.scale := Int.toNat_of_nonneg hbehind
  have hunits : (denominator : ℚ) ≠ 0 := by exact_mod_cast hpositive.ne'
  rw [value, hnone, Nat.add_zero, Nat.cast_mul, mul_div_cancel_right₀ _ hunits, mul_assoc, ← zpow_natCast, hscale,
    ← zpow_add₀ (by norm_num), neg_add_cancel, zpow_zero, mul_one]

theorem Expansion.value_nonneg (e : Expansion) (denominator : Nat) : 0 ≤ e.value denominator :=
  mul_nonneg (div_nonneg (Nat.cast_nonneg _) (Nat.cast_nonneg _)) (zpow_nonneg (by norm_num) _)

/-- A digit for which there is no room. -/
theorem Expansion.Over.value (hpositive : 0 < denominator) (hover : e.Over denominator) :
    (maxUnits : ℚ) + 1 ≤ e.value denominator * 10 ^ (e.scale + 1) := by
  have hle := (e.next denominator).quotient_le hpositive
  rw [next_value] at hle
  have hcast : (maxUnits : ℚ) + 1 ≤ (e.next denominator).quotient := by exact_mod_cast hover
  exact hcast.trans hle

theorem Expansion.next_proper (hproper : e.Proper denominator) (hasks : e.Asks) (hroom : ¬ e.Over denominator) :
    (e.next denominator).Proper denominator :=
  ⟨Nat.mod_lt _ (Nat.zero_lt_of_lt hproper.less), Nat.le_of_not_lt hroom, hasks.1⟩

/-- No turn of the loop overflows 128 bits. -/
theorem expand_step (hproper : e.Proper denominator) (hfits : denominator ≤ maxUnits) :
    (¬ e.Asks → expand denominator e = .ok e) ∧
      (e.Asks → e.Over denominator → expand denominator e = if e.scale < 0 then .error .scaling else .ok e) ∧
      (e.Asks → ¬ e.Over denominator → expand denominator e = expand denominator (e.next denominator)) := by
  have hless := hproper.less
  have hquotient := hproper.fits
  have hmax : maxUnits * 10 + 10 < 2 ^ 128 := by decide
  have hdigit : e.remainder * 10 / denominator < 10 := by
    rw [Nat.div_lt_iff_lt_mul (Nat.zero_lt_of_lt hless)]
    omega
  have hnumerator : u128 (e.remainder * 10) = e.remainder * 10 := U192.u128_of_lt (by omega)
  have hnext : u128 (e.quotient * 10 + e.remainder * 10 / denominator) =
      e.quotient * 10 + e.remainder * 10 / denominator := U192.u128_of_lt (by omega)
  rw [expand]
  simp only [hnumerator, hnext]
  refine ⟨fun hdone => dif_neg hdone, fun hasks hover => ?_, fun hasks hroom => ?_⟩
  · exact (dif_pos hasks).trans (if_pos hover)
  · exact (dif_pos hasks).trans (if_neg hroom)

/-- The loop's rule: what every digit keeps, the last digits have. -/
theorem expand_rule {keeps : Expansion → Prop}
    (hnext : ∀ e : Expansion, e.Asks → keeps e → keeps (e.next denominator))
    (hfits : denominator ≤ maxUnits) (hproper : e.Proper denominator) (h : keeps e) :
    match expand denominator e with
    | .ok last => keeps last ∧ last.Proper denominator ∧ (last.Asks → last.Over denominator ∧ 0 ≤ last.scale)
    | .error refusal => refusal = .scaling ∧ ∃ last, keeps last ∧ last.Over denominator ∧ last.scale < 0 := by
  -- on the places that may still come
  induction hplaces : (maxScale - e.scale).toNat generalizing e with
  | zero =>
    have hdone : ¬ e.Asks := by
      intro hasks
      have := hasks.1
      omega
    rw [(expand_step hproper hfits).1 hdone]
    exact ⟨h, hproper, fun hasks => absurd hasks hdone⟩
  | succ places ih =>
    by_cases hasks : e.Asks
    · by_cases hover : e.Over denominator
      · rw [(expand_step hproper hfits).2.1 hasks hover]
        by_cases hbefore : e.scale < 0
        · rw [if_pos hbefore]
          exact ⟨rfl, e, h, hover, hbefore⟩
        · rw [if_neg hbefore]
          exact ⟨h, hproper, fun _ => ⟨hover, Int.not_lt.mp hbefore⟩⟩
      · rw [(expand_step hproper hfits).2.2 hasks hover]
        apply ih (Expansion.next_proper hproper hasks hover) (hnext e hasks h)
        show (maxScale - (e.scale + 1)).toNat = places
        omega
    · rw [(expand_step hproper hfits).1 hasks]
      exact ⟨h, hproper, fun h => absurd h hasks⟩

/-- Every digit is the number's. The last is behind the point, and nothing remains, 28 places are reached
or another has no room; a number that has no room before the point is too great. -/
theorem expand_spec (hfits : denominator ≤ maxUnits) (hproper : e.Proper denominator) :
    match expand denominator e with
    | .ok last => last.value denominator = e.value denominator ∧ last.Proper denominator ∧ 0 ≤ last.scale ∧
        (last.remainder = 0 ∨ last.scale = maxScale ∨
          (maxUnits : ℚ) + 1 ≤ e.value denominator * 10 ^ (last.scale + 1))
    | .error refusal => refusal = .scaling ∧ (maxUnits : ℚ) + 1 ≤ e.value denominator := by
  have hpositive := Nat.zero_lt_of_lt hproper.less
  have hrule := @expand_rule denominator e (fun digits => digits.value denominator = e.value denominator)
    (fun digits _ h => digits.next_value.trans h) hfits hproper rfl
  cases hexpand : expand denominator e with
  | ok last =>
    rw [hexpand] at hrule
    obtain ⟨hvalue, hlast, hasks⟩ := hrule
    refine ⟨hvalue, hlast, ?_⟩
    by_cases hmore : last.Asks
    · obtain ⟨hover, hbehind⟩ := hasks hmore
      have hgreat := hover.value hpositive
      rw [hvalue] at hgreat
      exact ⟨hbehind, .inr (.inr hgreat)⟩
    · have hplaces := hlast.places
      unfold Expansion.Asks at hmore
      constructor <;> omega
  | error refusal =>
    rw [hexpand] at hrule
    obtain ⟨hrefusal, last, hvalue, hover, hbefore⟩ := hrule
    have hgreat := hover.value hpositive
    rw [hvalue] at hgreat
    refine ⟨hrefusal, hgreat.trans ?_⟩
    exact mul_le_of_le_one_right (e.value_nonneg _) (zpow_le_one_of_nonpos₀ (by norm_num) (by omega))

/-- What divides exactly keeps its places. -/
theorem expand_exact (hfits : denominator ≤ maxUnits) (hproper : e.Proper denominator) (hexact : e.remainder = 0)
    {last : Expansion} (h : expand denominator e = .ok last) :
    last.expanded = e.expanded ∧ last.remainder = 0 ∧ last.scale = max e.scale 0 := by
  have hrule := @expand_rule denominator e
    (fun digits => digits.expanded = e.expanded ∧ digits.remainder = 0 ∧ max digits.scale 0 = max e.scale 0) ?_
        hfits hproper ⟨rfl, hexact, rfl⟩
  · rw [h] at hrule
    obtain ⟨⟨hexpanded, hremainder, hscale⟩, hlast, hasks⟩ := hrule
    refine ⟨hexpanded, hremainder, ?_⟩
    by_cases hmore : last.Asks
    · have hbehind := (hasks hmore).2
      omega
    · unfold Expansion.Asks at hmore
      have hplaces := hlast.places
      omega
  · intro digits hasks hdigits
    obtain ⟨hexpanded, hremainder, hscale⟩ := hdigits
    have hrest : (digits.next denominator).remainder = 0 := by
      show digits.remainder * 10 % denominator = 0
      rw [hremainder, Nat.zero_mul, Nat.zero_mod]
    have hbefore : digits.scale < 0 := hasks.2.resolve_right fun h => h hremainder
    refine ⟨?_, hrest, ?_⟩
    · show (digits.expanded || decide ((digits.next denominator).remainder ≠ 0)) = e.expanded
      rw [hrest, hexpanded]
      simp
    · show max (digits.scale + 1) 0 = max e.scale 0
      omega

/-- What was expanded stays marked so. -/
theorem expand_expanded (hfits : denominator ≤ maxUnits) (hproper : e.Proper denominator)
    (hexpanded : e.expanded = true) {last : Expansion} (h : expand denominator e = .ok last) :
    last.expanded = true := by
  have hrule := @expand_rule denominator e (fun digits => digits.expanded = true)
    (fun digits _ hdigits => by
      show (digits.expanded || _) = true
      rw [hdigits, Bool.true_or]) hfits hproper hexpanded
  rw [h] at hrule
  exact hrule.1

end

/-! ### The quotient -/

theorem divisionTail_of {r p : Nat} (hr : r < p) (hp : p ≤ maxUnits) : (divisionTail r p).Of r p := by
  have hmax : maxUnits * 2 < 2 ^ 128 := by decide
  have htwice : u128 (r * 2) = r * 2 := U192.u128_of_lt (by omega)
  unfold divisionTail
  rw [htwice]
  dsimp only
  by_cases hhalf : p ≤ r * 2
  · rw [if_pos hhalf]
    by_cases hmore : p < r * 2
    · rw [if_pos hmore]
      constructor <;> simp [RoundingTail.prepend] <;> omega
    · rw [if_neg hmore]
      constructor <;> simp [RoundingTail.prepend] <;> omega
  · rw [if_neg hhalf]
    by_cases hnone : r = 0
    · rw [if_neg (not_not.mpr hnone)]
      constructor <;> simp [RoundingTail.append] <;> omega
    · rw [if_pos hnone]
      constructor <;> simp [RoundingTail.append] <;> omega

/-- A quotient of many digits is rounded once, with what remains of it. -/
theorem Expansion.fit {e : Expansion} {denominator : Nat} (hproper : e.Proper denominator) (hbehind : 0 ≤ e.scale)
    (hfits : denominator ≤ maxUnits) :
    Fit (e.value denominator) e.scale.toNat
      (fitToUnits e.quotient (divisionTail e.remainder denominator) e.scale.toNat) := by
  have hspec := fitToUnits_spec e.quotient (divisionTail_of hproper.less hfits) hproper.less e.scale.toNat
  have hvalue : e.value denominator =
      (e.quotient * denominator + e.remainder : ℕ) / (denominator * 10 ^ e.scale.toNat) := by
    have hscale : (e.scale.toNat : Int) = e.scale := Int.toNat_of_nonneg hbehind
    rw [value, zpow_neg, ← hscale, zpow_natCast, ← div_eq_mul_inv, div_div, Int.toNat_natCast]
  rw [hvalue]
  exact hspec

namespace Decimal

/-- What the digits of a quotient begin with. -/
def quotient (a b : Decimal) : Expansion :=
  ⟨a.units / b.units, a.units % b.units, a.scale - b.scale, a.units % b.units ≠ 0⟩

section
variable {a b : Decimal} (h : b.units ≠ 0)
include h

theorem quotient_proper : (a.quotient b).Proper b.units := by
  have hplaces := a.places
  refine ⟨Nat.mod_lt _ (Nat.pos_of_ne_zero h), (Nat.div_le_self _ _).trans a.fits, ?_⟩
  show (a.scale : Int) - b.scale ≤ maxScale
  omega

theorem quotient_rational :
    a.rational / b.rational = sign (a.negative != b.negative) * (a.quotient b).value b.units := by
  have hunits : (b.units : ℚ) ≠ 0 := by exact_mod_cast h
  have hten : ∀ n : Nat, (10 : ℚ) ^ n ≠ 0 := fun n => pow_ne_zero n (by norm_num)
  have hvalue : (a.quotient b).value b.units = a.units / b.units * (10 ^ b.scale / 10 ^ a.scale) := by
    unfold Expansion.value
    rw [show (a.quotient b).quotient * b.units + (a.quotient b).remainder = a.units from Nat.div_add_mod' _ _,
      show -(a.quotient b).scale = (b.scale : Int) - a.scale from neg_sub _ _,
      zpow_sub₀ (by norm_num), zpow_natCast, zpow_natCast]
  rw [rational_signed, rational_signed, hvalue]
  have hsame : ∀ negative, sign negative * sign negative = 1 := by
    intro negative
    cases negative <;> simp [sign]
  have hsign : sign a.negative / sign b.negative = sign (a.negative != b.negative) := by
    cases a.negative <;> cases b.negative <;> simp [sign]
  rw [← hsign, mul_div_mul_comm]
  congr 1
  field_simp

theorem divide_eq : a.divide b = do
    let e ← expand b.units (a.quotient b)
    let m ← fitToUnits e.quotient (divisionTail e.remainder b.units) e.scale.toNat
    return if e.expanded then (make m (a.negative != b.negative)).trimmed else make m (a.negative != b.negative) := by
  have hmax : maxUnits < 2 ^ 128 := by decide
  rw [divide, if_neg h]
  have hspec := expand_spec b.fits (quotient_proper (a := a) h)
  show (expand b.units (a.quotient b)).bind _ = (expand b.units (a.quotient b)).bind _
  cases hexpand : expand b.units (a.quotient b) with
  | error refusal => rfl
  | ok e =>
    rw [hexpand] at hspec
    have hunits : (U192.ofUnits e.quotient).toNat = e.quotient :=
      U192.ofUnits_toNat (Nat.lt_of_le_of_lt hspec.2.1.fits hmax)
    dsimp only [Except.bind]
    rw [U192.fitToUnits_eq, hunits]

omit h in
/-- Digits that end where no more are needed, or none has room, are rounded at the greatest scale. -/
theorem rounded {x y : ℚ} {negative : Bool} {kept : Nat} (hx : x = sign negative * y) (hy : 0 ≤ y) {m : Magnitude}
    (hfit : Fit y kept (.ok m))
    (hend : (∃ n : ℕ, y * 10 ^ kept = n ∧ n ≤ maxUnits) ∨ kept = maxScale ∨
      (maxUnits : ℚ) + 1 ≤ y * 10 ^ (kept + 1))
    (hplaces : kept ≤ maxScale) :
    Fits x 0 ∧ ∃ scale, Largest x maxScale scale ∧
      (make m negative).rational = halfEven (x * 10 ^ scale) / 10 ^ scale := by
  have hzero := (hfit.fits hx hy).mono (Nat.zero_le _)
  refine ⟨hzero, ?_⟩
  rcases hend with ⟨n, hn, hroom⟩ | hend
  · -- the number is exact at the scale kept, and so at every greater one
    have hwhole : halfEven (y * 10 ^ kept) = n := by
      rw [hn]
      exact halfEven_intCast (n : ℤ)
    have hkept : Fits x kept := by
      rw [hx, fits_signed hy, hwhole]
      exact_mod_cast hroom
    have hsame := hfit.scale_eq hx hy hkept hplaces
    obtain ⟨scale, hlargest⟩ := exists_largest maxScale hzero
    have hinteger : x * 10 ^ kept = (((if negative then -1 else 1) * n : ℤ) : ℚ) := by
      rw [hx, mul_assoc, hn]
      cases negative <;> simp [sign]
    refine ⟨scale, hlargest, ?_⟩
    rw [hlargest.exact hinteger hkept hplaces hplaces, hfit.rational hx, hsame, hinteger, halfEven_intCast,
      ← hinteger, mul_div_cancel_right₀ _ (pow_ne_zero _ (by norm_num))]
  · have hlargest := hfit.largest hx hy hplaces fun _ hless => hend.resolve_left hless.ne
    exact ⟨m.scale, hlargest, hfit.rational hx⟩

/-- How a quotient came about. -/
theorem of_divide (hd : a.divide b = .ok d) : ∃ e m, expand b.units (a.quotient b) = .ok e ∧
      Fit ((a.quotient b).value b.units) e.scale.toNat (.ok m) ∧
      d = if e.expanded then (make m (a.negative != b.negative)).trimmed else make m (a.negative != b.negative) := by
  have hspec := expand_spec b.fits (quotient_proper (a := a) h)
  rw [divide_eq h] at hd
  obtain ⟨e, hexpand, hd⟩ := Fallible.of_bind hd
  obtain ⟨m, hmantissa, hd⟩ := Fallible.of_bind hd
  rw [hexpand] at hspec
  obtain ⟨hvalue, hlast, hbehind, -⟩ := hspec
  have hfit := Expansion.fit hlast hbehind b.fits
  rw [hvalue, hmantissa] at hfit
  exact ⟨e, m, hexpand, hfit, (Except.ok.inj hd).symm⟩

/-- A quotient is rounded at the greatest scale at which it fits. -/
theorem divide_largest (hd : a.divide b = .ok d) :
    Fits (a.rational / b.rational) 0 ∧ ∃ scale, Largest (a.rational / b.rational) maxScale scale ∧
      d.rational = halfEven (a.rational / b.rational * 10 ^ scale) / 10 ^ scale := by
  have hx := quotient_rational (a := a) h
  have hy := (a.quotient b).value_nonneg b.units
  have hspec := expand_spec b.fits (quotient_proper (a := a) h)
  obtain ⟨e, m, hexpand, hfit, rfl⟩ := of_divide h hd
  rw [hexpand] at hspec
  obtain ⟨hvalue, hlast, hbehind, hend⟩ := hspec
  have hscale : (e.scale.toNat : Int) = e.scale := Int.toNat_of_nonneg hbehind
  have hplaces : e.scale.toNat ≤ maxScale := by
    have := hlast.places
    omega
  have hends : (∃ n : ℕ, (a.quotient b).value b.units * 10 ^ e.scale.toNat = n ∧ n ≤ maxUnits) ∨
      e.scale.toNat = maxScale ∨
      (maxUnits : ℚ) + 1 ≤ (a.quotient b).value b.units * 10 ^ (e.scale.toNat + 1) := by
    rcases hend with hnone | hmax | hover
    · exact .inl ⟨e.quotient, hvalue ▸ e.value_whole (Nat.pos_of_ne_zero h) hbehind hnone, hlast.fits⟩
    · exact .inr (.inl (by omega))
    · rw [← hscale] at hover
      exact .inr (.inr (by exact_mod_cast hover))
  obtain ⟨hzero, hrounded⟩ := rounded hx hy hfit hends hplaces
  refine ⟨hzero, ?_⟩
  split
  · rwa [trimmed_rational]
  · exact hrounded

/-- A quotient that comes out even keeps its places. -/
theorem divide_exact (hd : a.divide b = .ok d) (hdvd : b.units ∣ a.units) : d.scale = a.scale - b.scale := by
  have hx := quotient_rational (a := a) h
  have hy := (a.quotient b).value_nonneg b.units
  have hproper := quotient_proper (a := a) h
  have hspec := expand_spec b.fits hproper
  obtain ⟨e, m, hexpand, hfit, rfl⟩ := of_divide h hd
  rw [hexpand] at hspec
  obtain ⟨hvalue, hlast, hbehind, -⟩ := hspec
  obtain ⟨hexpanded, hnone, hkept⟩ := expand_exact b.fits hproper (Nat.mod_eq_zero_of_dvd hdvd) hexpand
  have hstart : (a.quotient b).expanded = false := decide_eq_false (not_not.mpr (Nat.mod_eq_zero_of_dvd hdvd))
  have hfits : Fits (a.rational / b.rational) e.scale.toNat := by
    rw [hx, fits_signed hy, ← hvalue, e.value_whole (Nat.pos_of_ne_zero h) hbehind hnone,
      show halfEven (e.quotient : ℚ) = e.quotient from halfEven_intCast (e.quotient : ℤ)]
    exact_mod_cast hlast.fits
  have hplaces : e.scale.toNat ≤ maxScale := by
    have := hlast.places
    omega
  rw [hexpanded, hstart]
  show m.scale = a.scale - b.scale
  rw [hfit.scale_eq hx hy hfits hplaces, hkept]
  show (max ((a.scale : Int) - b.scale) 0).toNat = a.scale - b.scale
  omega

/-- Any other has no zeros behind the point. -/
theorem divide_stripped (hd : a.divide b = .ok d) (hdvd : ¬ b.units ∣ a.units) : d.scale = 0 ∨ d.units % 10 ≠ 0 := by
  obtain ⟨e, m, hexpand, -, rfl⟩ := of_divide h hd
  have hstart : (a.quotient b).expanded = true := decide_eq_true (mt Nat.dvd_of_mod_eq_zero hdvd)
  rw [expand_expanded b.fits (quotient_proper (a := a) h) hstart hexpand, if_pos rfl]
  exact trimmed_done _

/-- A quotient is refused where it does not fit without places. -/
theorem divide_refused {refusal : DecimalError} (hd : a.divide b = .error refusal) :
    (refusal = .scaling ∨ refusal = .overflow) ∧ ¬ Fits (a.rational / b.rational) 0 := by
  have hx := quotient_rational (a := a) h
  have hy := (a.quotient b).value_nonneg b.units
  have hspec := expand_spec b.fits (quotient_proper (a := a) h)
  rw [hx, fits_signed hy, not_le, pow_zero, mul_one]
  rw [divide_eq h] at hd
  cases hexpand : expand b.units (a.quotient b) with
  | error refused =>
    rw [hexpand] at hspec hd
    obtain ⟨rfl, hgreat⟩ := hspec
    exact ⟨.inl (Except.error.inj hd).symm, over_of_le hgreat⟩
  | ok e =>
    rw [hexpand] at hspec
    obtain ⟨hvalue, hlast, hbehind, -⟩ := hspec
    have hfit := Expansion.fit hlast hbehind b.fits
    rw [Fallible.bind_ok hexpand] at hd
    rw [hvalue] at hfit
    cases hmantissa : fitToUnits e.quotient (divisionTail e.remainder b.units) e.scale.toNat with
    | error refused =>
      rw [hmantissa] at hfit hd
      obtain ⟨rfl, hover⟩ := hfit
      exact ⟨.inr (Except.error.inj hd).symm, hover⟩
    | ok m =>
      rw [Fallible.bind_ok hmantissa] at hd
      cases hd

/-- **A quotient is the exact one, rounded once.** It is rounded half to even at the greatest scale at which
it fits, and refused where it does not even fit without places. A quotient that comes out even keeps its places;
any other has no zeros behind the point. -/
theorem divide_rounds_once :
    match a.divide b with
    | .ok d => Fits (a.rational / b.rational) 0 ∧
        (∃ scale, Largest (a.rational / b.rational) maxScale scale ∧
          d.rational = halfEven (a.rational / b.rational * 10 ^ scale) / 10 ^ scale) ∧
        (b.units ∣ a.units → d.scale = a.scale - b.scale) ∧
        (¬ b.units ∣ a.units → d.scale = 0 ∨ d.units % 10 ≠ 0)
    | .error e => (e = .scaling ∨ e = .overflow) ∧ ¬ Fits (a.rational / b.rational) 0 := by
  cases hd : a.divide b with
  | error e => exact divide_refused h hd
  | ok d =>
    obtain ⟨hzero, hrounded⟩ := divide_largest h hd
    exact ⟨hzero, hrounded, divide_exact h hd, divide_stripped h hd⟩

end

def one : Decimal := ⟨1, 0, false, by decide, zero.places, by decide⟩

/-- A third. -/
theorem divide_rounds_once_third :
    let three : Decimal := ⟨3, 0, false, by decide, by decide, by decide⟩
    ∃ d scale, one.divide three = .ok d ∧ Largest (one.rational / three.rational) maxScale scale ∧
      d.rational = halfEven (one.rational / three.rational * 10 ^ scale) / 10 ^ scale := by
  intro three
  have hrounds := @divide_rounds_once one three (by decide)
  cases hdivide : one.divide three with
  | error e =>
    rw [hdivide] at hrounds
    refine absurd ?_ hrounds.2
    have hthird : one.rational / three.rational = 1 / 3 := by
      rw [rational_signed, rational_signed]
      norm_num [one, three, sign]
    rw [fits_iff, hthird]
    have hnearest : halfEven (|1 / 3| * 10 ^ 0 : ℚ) = 0 := Nearest.eq (.inl (by norm_num [abs_lt]))
    rw [hnearest]
    exact Int.natCast_nonneg _
  | ok d =>
    rw [hdivide] at hrounds
    obtain ⟨scale, hlargest, hrational⟩ := hrounds.2.1
    exact ⟨d, scale, rfl, hlargest, hrational⟩

end Decimal
end Agiru
