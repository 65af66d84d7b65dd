import Agiru.Values.Arithmetic

/-! The remainder of a division, bit by bit on the limbs.

The mantissas at one scale are divided as whole numbers: the remainder takes one bit of the dividend after
the other, and gives up the divisor where it has reached it (`dividedBy_toNat`). So it is exact however great
the quotient is, and less than one of two mantissas. -/
namespace Agiru

/-! ### Long division -/

/-- The remainder of one bit more. -/
theorem mod_bit {m d bit : Nat} (hd : 0 < d) (hbit : bit ≤ 1) :
    (2 * m + bit) % d = if d ≤ 2 * (m % d) + bit then 2 * (m % d) + bit - d else 2 * (m % d) + bit := by
  have hless := Nat.mod_lt m hd
  have hsplit : 2 * m + bit = 2 * (m % d) + bit + d * (2 * (m / d)) := by
    conv_lhs => rw [← Nat.mod_add_div m d]
    ring
  rw [hsplit, Nat.add_mul_mod_self_left]
  split
  · next hreached => rw [Nat.mod_eq_sub_mod hreached, Nat.mod_eq_of_lt (by omega)]
  · next hbelow => rw [Nat.mod_eq_of_lt (by omega)]

/-- The quotient of one bit more. -/
theorem div_bit {m d bit : Nat} (hd : 0 < d) (hbit : bit ≤ 1) :
    (2 * m + bit) / d = 2 * (m / d) + if d ≤ 2 * (m % d) + bit then 1 else 0 := by
  have hless := Nat.mod_lt m hd
  have hsplit : 2 * m + bit = 2 * (m % d) + bit + d * (2 * (m / d)) := by
    conv_lhs => rw [← Nat.mod_add_div m d]
    ring
  rw [hsplit, Nat.add_mul_div_left _ _ hd, Nat.add_comm]
  congr 1
  split
  · next hreached =>
    rw [Nat.div_eq_iff hd]
    omega
  · next hbelow => rw [Nat.div_eq_of_lt (by omega)]

namespace U192

/-- `w_[i]`. -/
def limbAt (w : U192) : Nat → UInt64
  | 0 => w.low
  | 1 => w.middle
  | _ => w.high

def bit (w : U192) (i : Nat) : Bool := (w.limbAt (i / 64) >>> UInt64.ofNat (i % 64)) &&& 1 ≠ 0

def shiftLeft1 (w : U192) : U192 :=
  ⟨w.low <<< 1, (w.middle <<< 1) ||| (w.low >>> 63), (w.high <<< 1) ||| (w.middle >>> 63)⟩

def setBit (w : U192) (i : Nat) : U192 :=
  let mask := (1 : UInt64) <<< UInt64.ofNat (i % 64)
  match i / 64 with
  | 0 => {w with low := w.low ||| mask}
  | 1 => {w with middle := w.middle ||| mask}
  | _ => {w with high := w.high ||| mask}

/-- The loop of `DividedBy`, with so many bits to go: the quotient and the remainder. -/
def divideFrom (w divisor : U192) : Nat → U192 → U192 → U192 × U192
  | 0, quotient, rem => (quotient, rem)
  | i + 1, quotient, rem =>
    let shifted := rem.shiftLeft1
    let rem := if w.bit i then {shifted with low := shifted.low ||| 1} else shifted
    if rem.compare divisor ≠ .lt then divideFrom w divisor i (quotient.setBit i) (rem.sub divisor)
    else divideFrom w divisor i quotient rem

def dividedBy (w divisor : U192) : U192 × U192 := divideFrom w divisor 192 {} {}

/-! ### Bits -/

/-- A bit of a limb is not moved by the limbs above it. -/
theorem bit_below {a b j : Nat} (hj : j < 64) : (a + 2 ^ 64 * b) / 2 ^ j % 2 = a / 2 ^ j % 2 := by
  have hsplit : a + 2 ^ 64 * b = a + 2 ^ j * (2 * (2 ^ (63 - j) * b)) := by
    rw [← Nat.mul_assoc 2, ← pow_succ', ← Nat.mul_assoc, ← pow_add]
    congr 3
    omega
  rw [hsplit, Nat.add_mul_div_left _ _ (Nat.pow_pos (by decide)), Nat.add_mul_mod_self_left]

theorem limb_bit (limb : UInt64) {j : Nat} (hj : j < 64) :
    (limb >>> UInt64.ofNat j) &&& 1 ≠ 0 ↔ limb.toNat / 2 ^ j % 2 = 1 := by
  have hshift : (UInt64.ofNat j).toNat % 64 = j := by
    rw [UInt64.toNat_ofNat']
    omega
  rw [ne_eq, ← UInt64.toNat_inj, UInt64.toNat_and, UInt64.toNat_shiftRight, hshift, UInt64.toNat_one,
    UInt64.toNat_zero, Nat.and_one_is_mod, Nat.shiftRight_eq_div_pow]
  omega

theorem bit_iff (w : U192) {i : Nat} (hi : i < 192) : w.bit i = true ↔ w.toNat / 2 ^ i % 2 = 1 := by
  have hj : i % 64 < 64 := Nat.mod_lt i (by decide)
  have hlow := w.low.toNat_lt
  have hmiddle := w.middle.toNat_lt
  have hsplit : 2 ^ i = (2 ^ 64) ^ (i / 64) * 2 ^ (i % 64) := by
    rw [← pow_mul, ← pow_add, Nat.div_add_mod]
  have hlimbs : w.toNat = w.low.toNat + 2 ^ 64 * (w.middle.toNat + 2 ^ 64 * w.high.toNat) := by
    unfold toNat
    ring
  rw [bit, decide_eq_true_eq, limb_bit _ hj, hsplit, hlimbs, ← Nat.div_div_eq_div_mul]
  have hlimb : i / 64 = 0 ∨ i / 64 = 1 ∨ i / 64 = 2 := by omega
  rcases hlimb with h | h | h
  · rw [h, pow_zero, Nat.div_one, bit_below hj]
    rfl
  · rw [h, pow_one, Nat.add_mul_div_left _ _ (by decide), Nat.div_eq_of_lt hlow, Nat.zero_add, bit_below hj]
    rfl
  · rw [h, pow_two, ← Nat.div_div_eq_div_mul, Nat.add_mul_div_left _ _ (by decide), Nat.div_eq_of_lt hlow,
      Nat.zero_add, Nat.add_mul_div_left _ _ (by decide), Nat.div_eq_of_lt hmiddle, Nat.zero_add]
    rfl

/-- The bit that a limb hands to the next. -/
theorem shift_limb (limb below : UInt64) :
    ((limb <<< 1) ||| (below >>> 63)).toNat = limb.toNat * 2 % 2 ^ 64 + below.toNat / 2 ^ 63 := by
  have hbelow := below.toNat_lt
  have hcarry : below.toNat / 2 ^ 63 < 2 ^ 1 := by omega
  have hone : (1 : UInt64).toNat % 64 = 1 := rfl
  have htop : (63 : UInt64).toNat % 64 = 63 := rfl
  rw [UInt64.toNat_or, UInt64.toNat_shiftLeft, UInt64.toNat_shiftRight, hone, htop, Nat.shiftRight_eq_div_pow,
    Nat.shiftLeft_eq, pow_one]
  have heven : limb.toNat * 2 % 2 ^ 64 = (limb.toNat % 2 ^ 63) <<< 1 := by
    rw [Nat.shiftLeft_eq, pow_one]
    omega
  rw [heven, Nat.shiftLeft_add_eq_or_of_lt hcarry]

theorem shiftLeft1_toNat {w : U192} (h : w.toNat * 2 < 2 ^ 192) : w.shiftLeft1.toNat = w.toNat * 2 := by
  have hlow := w.low.toNat_lt
  have hmiddle := w.middle.toNat_lt
  have hhigh := w.high.toNat_lt
  have hone : (1 : UInt64).toNat % 64 = 1 := rfl
  unfold toNat at h ⊢
  simp only [shiftLeft1, shift_limb]
  rw [UInt64.toNat_shiftLeft, hone, Nat.shiftLeft_eq, pow_one]
  omega

theorem or_one_toNat {w : U192} (h : w.toNat % 2 = 0) : ({w with low := w.low ||| 1} : U192).toNat = w.toNat + 1 := by
  have heven : w.low.toNat = (w.low.toNat / 2) <<< 1 := by
    rw [Nat.shiftLeft_eq, pow_one]
    unfold toNat at h
    omega
  have hor : (w.low ||| 1).toNat = w.low.toNat + 1 := by
    rw [UInt64.toNat_or, UInt64.toNat_one, heven, ← Nat.shiftLeft_add_eq_or_of_lt (by decide)]
  unfold toNat
  dsimp only
  rw [hor]
  omega

/-- A bit above which nothing is set. -/
theorem limb_setBit (limb : UInt64) {j : Nat} (hj : j < 64) (h : limb.toNat % 2 ^ (j + 1) = 0) :
    (limb ||| (1 : UInt64) <<< UInt64.ofNat j).toNat = limb.toNat + 2 ^ j := by
  have hshift : (UInt64.ofNat j).toNat % 64 = j := by
    rw [UInt64.toNat_ofNat']
    omega
  have hless : 2 ^ j < 2 ^ 64 := Nat.pow_lt_pow_right (by decide) hj
  have hmultiple : limb.toNat = (limb.toNat / 2 ^ (j + 1)) <<< (j + 1) := by
    rw [Nat.shiftLeft_eq, Nat.div_mul_cancel (Nat.dvd_of_mod_eq_zero h)]
  rw [UInt64.toNat_or, UInt64.toNat_shiftLeft, hshift, UInt64.toNat_one, Nat.one_shiftLeft, Nat.mod_eq_of_lt hless,
    hmultiple, ← Nat.shiftLeft_add_eq_or_of_lt (Nat.pow_lt_pow_right (by decide) (Nat.lt_succ_self j))]

/-- What divides a number divides its lowest limb. -/
theorem dvd_limb {a b j : Nat} (hj : j < 64) (h : 2 ^ (j + 1) ∣ a + 2 ^ 64 * b) : 2 ^ (j + 1) ∣ a :=
  (Nat.dvd_add_left ((Nat.pow_dvd_pow 2 hj).mul_right b)).mp h

/-- What a whole limb and more divides has nothing in its lowest limb. -/
theorem dvd_above {a b k : Nat} (ha : a < 2 ^ 64) (h : 2 ^ (64 + k) ∣ a + 2 ^ 64 * b) : a = 0 ∧ 2 ^ k ∣ b := by
  rw [pow_add] at h
  have hlimb : 2 ^ 64 ∣ a := (Nat.dvd_add_left (Nat.dvd_mul_right _ b)).mp ((Nat.dvd_mul_right _ _).trans h)
  have hnone : a = 0 := Nat.eq_zero_of_dvd_of_lt hlimb ha
  rw [hnone, Nat.zero_add] at h
  exact ⟨hnone, Nat.dvd_of_mul_dvd_mul_left (by decide) h⟩

theorem setBit_toNat {w : U192} {i : Nat} (hi : i < 192) (h : 2 ^ (i + 1) ∣ w.toNat) :
    (w.setBit i).toNat = w.toNat + 2 ^ i := by
  have hj : i % 64 < 64 := Nat.mod_lt i (by decide)
  have hlimbs : w.toNat = w.low.toNat + 2 ^ 64 * (w.middle.toNat + 2 ^ 64 * w.high.toNat) := by
    unfold toNat
    ring
  rw [hlimbs] at h
  have hlimb : i / 64 = 0 ∨ i / 64 = 1 ∨ i / 64 = 2 := by omega
  rcases hlimb with hlimb | hlimb | hlimb
  · have hplace : i = i % 64 := by omega
    rw [hplace] at h
    have hset := limb_setBit w.low hj (Nat.mod_eq_zero_of_dvd (dvd_limb hj h))
    simp only [setBit, hlimb, toNat, hset]
    rw [← hplace]
    ring
  · have hplace : i = 64 + i % 64 := by omega
    rw [hplace, Nat.add_assoc] at h
    obtain ⟨-, hmiddle⟩ := dvd_above w.low.toNat_lt h
    have hset := limb_setBit w.middle hj (Nat.mod_eq_zero_of_dvd (dvd_limb hj hmiddle))
    simp only [setBit, hlimb, toNat, hset]
    conv_rhs => rw [hplace, pow_add]
    ring
  · have hplace : i = 64 + (64 + i % 64) := by omega
    rw [hplace, Nat.add_assoc] at h
    obtain ⟨-, hmiddle⟩ := dvd_above w.low.toNat_lt h
    rw [Nat.add_assoc] at hmiddle
    obtain ⟨-, hhigh⟩ := dvd_above w.middle.toNat_lt hmiddle
    have hset := limb_setBit w.high hj (Nat.mod_eq_zero_of_dvd hhigh)
    simp only [setBit, hlimb, toNat, hset]
    conv_rhs => rw [hplace, pow_add, pow_add]
    ring

/-! ### The division -/

/-- A turn of the loop: the next bit of the dividend joins the remainder. -/
theorem bitIn_toNat {w rem : U192} {i : Nat} (hi : i < 192) (hroom : rem.toNat * 2 < 2 ^ 192) :
    (if w.bit i then {rem.shiftLeft1 with low := rem.shiftLeft1.low ||| 1} else rem.shiftLeft1 : U192).toNat =
      2 * rem.toNat + w.toNat / 2 ^ i % 2 := by
  have hshifted := shiftLeft1_toNat hroom
  split
  · next hset =>
    rw [or_one_toNat (by omega), hshifted, (bit_iff w hi).mp hset]
    omega
  · next hclear =>
    rw [bit_iff w hi] at hclear
    rw [hshifted]
    omega

/-- The bits above the ones to go have been divided. -/
theorem divideFrom_toNat (w : U192) {divisor : U192} (hpositive : 0 < divisor.toNat)
    (hroom : divisor.toNat ≤ 2 ^ 191) {i : Nat} (hi : i ≤ 192) {quotient rem : U192}
    (hrem : rem.toNat = w.toNat / 2 ^ i % divisor.toNat)
    (hquotient : quotient.toNat = w.toNat / 2 ^ i / divisor.toNat * 2 ^ i) :
    (divideFrom w divisor i quotient rem).1.toNat = w.toNat / divisor.toNat ∧
      (divideFrom w divisor i quotient rem).2.toNat = w.toNat % divisor.toNat := by
  induction i generalizing quotient rem with
  | zero =>
    rw [pow_zero, Nat.div_one] at hrem hquotient
    exact ⟨hquotient.trans (Nat.mul_one _), hrem⟩
  | succ i ih =>
    have hbit : w.toNat / 2 ^ i = 2 * (w.toNat / 2 ^ (i + 1)) + w.toNat / 2 ^ i % 2 := by
      rw [pow_succ, ← Nat.div_div_eq_div_mul]
      omega
    have hone : w.toNat / 2 ^ i % 2 ≤ 1 := by omega
    have hless : rem.toNat < divisor.toNat := hrem ▸ Nat.mod_lt _ hpositive
    have hin := @bitIn_toNat w rem i (by omega) (by omega)
    have hmod := mod_bit (m := w.toNat / 2 ^ (i + 1)) hpositive hone
    have hdiv := div_bit (m := w.toNat / 2 ^ (i + 1)) hpositive hone
    rw [← hbit, ← hrem, ← hin] at hmod hdiv
    rw [divideFrom]
    generalize (if w.bit i then {rem.shiftLeft1 with low := rem.shiftLeft1.low ||| 1} else rem.shiftLeft1 : U192) =
      next at hmod hdiv
    by_cases hreached : divisor.toNat ≤ next.toNat
    · have hcompare : next.compare divisor ≠ .lt := by
        rw [compare_eq, ne_eq, compare_lt_iff_lt]
        exact Nat.not_lt.mpr hreached
      rw [if_pos hcompare]
      rw [if_pos hreached] at hmod hdiv
      have hmultiple : 2 ^ (i + 1) ∣ quotient.toNat := hquotient ▸ Nat.dvd_mul_left _ _
      apply ih (by omega)
      · rw [sub_toNat hreached, hmod]
      · rw [setBit_toNat (by omega) hmultiple, hdiv, hquotient, pow_succ]
        ring
    · have hcompare : ¬ next.compare divisor ≠ .lt := by
        rw [compare_eq, not_not, compare_lt_iff_lt]
        exact Nat.lt_of_not_le hreached
      rw [if_neg hcompare]
      rw [if_neg hreached] at hmod hdiv
      apply ih (by omega)
      · exact hmod.symm
      · rw [hdiv, hquotient, pow_succ]
        ring

theorem dividedBy_toNat (w : U192) {divisor : U192} (hpositive : 0 < divisor.toNat)
    (hroom : divisor.toNat ≤ 2 ^ 191) :
    (w.dividedBy divisor).1.toNat = w.toNat / divisor.toNat ∧
      (w.dividedBy divisor).2.toNat = w.toNat % divisor.toNat := by
  have hnothing : w.toNat / 2 ^ 192 = 0 := Nat.div_eq_of_lt w.toNat_lt
  apply divideFrom_toNat w hpositive hroom le_rfl
  · rw [hnothing, Nat.zero_mod]
    rfl
  · rw [hnothing, Nat.zero_div, Nat.zero_mul]
    rfl

end U192

/-! ### The remainder of decimals -/

namespace Decimal

/-- `operator%=`. -/
def modulo (a b : Decimal) : Except DecimalError Decimal :=
  if b.units = 0 then .error .moduloByZero
  else if a.units = 0 then .ok a
  else do
    let (dividend, divisor) ← alignWide a b
    if dividend.compare divisor = .lt then .ok a
    else
      let remainder := (dividend.dividedBy divisor).2
      if h : remainder.fitsMantissa then
        .ok (make ⟨remainder.toU128, max a.scale b.scale, U192.toU128_le h, max_le a.places b.places⟩ a.negative)
      else .error .remainder

/-- The remainder of two magnitudes is what the dividend exceeds a multiple of the divisor by. -/
theorem remainder_of_magnitudes {x y : ℚ} {s t : Bool} {left right scale : Nat}
    (hx : x = sign s * (left / 10 ^ scale)) (hy : y = sign t * (right / 10 ^ scale)) :
    ∃ q : ℤ, x = q * y + sign s * ((left % right : ℕ) / 10 ^ scale) := by
  have hsquare : sign t * sign t = 1 := by cases t <;> simp [sign]
  obtain ⟨unit, hunit⟩ : ∃ unit : ℤ, (unit : ℚ) = sign s * sign t := by
    cases s <;> cases t
    · exact ⟨1, by simp [sign]⟩
    · exact ⟨-1, by simp [sign]⟩
    · exact ⟨-1, by simp [sign]⟩
    · exact ⟨1, by simp [sign]⟩
  refine ⟨unit * (left / right : ℕ), ?_⟩
  have hdivision : (left : ℚ) = (left / right : ℕ) * right + (left % right : ℕ) := by
    exact_mod_cast (Nat.div_add_mod' left right).symm
  push_cast [hunit]
  calc x = sign s * (left / 10 ^ scale) := hx
    _ = sign s * (((left / right : ℕ) * right + (left % right : ℕ)) / 10 ^ scale) := by rw [← hdivision]
    _ = (sign s * (left / right : ℕ) * (sign t * sign t)) * (right / 10 ^ scale) +
        sign s * ((left % right : ℕ) / 10 ^ scale) := by
      rw [hsquare]
      ring
    _ = sign s * sign t * (left / right : ℕ) * y + sign s * ((left % right : ℕ) / 10 ^ scale) := by
      rw [hy]
      ring

theorem abs_sign (negative : Bool) {x : ℚ} (hx : 0 ≤ x) : |sign negative * x| = x := by
  cases negative <;> simp [sign, abs_of_nonneg hx]

/-- **A remainder is exact, and there always is one.** It is what the dividend exceeds a multiple of the divisor
by, less than the divisor, and of the dividend's sign. -/
theorem modulo_exact (a b : Decimal) (h : b.units ≠ 0) :
    ∃ r, a.modulo b = .ok r ∧ (∃ q : ℤ, a.rational = q * b.rational + r.rational) ∧
      |r.rational| < |b.rational| ∧ (r.units = 0 ∨ r.negative = a.negative) := by
  have hpositive : 0 < |b.rational| := by
    have hunits : (0 : ℚ) < b.units := by exact_mod_cast Nat.pos_of_ne_zero h
    rw [b.abs_rational]
    positivity
  rw [modulo, if_neg h]
  by_cases hzero : a.units = 0
  · have hnothing : a.rational = 0 := by
      rw [rational_signed, hzero]
      simp
    rw [if_pos hzero]
    refine ⟨a, rfl, ⟨0, by simp⟩, ?_, .inl hzero⟩
    rw [hnothing, abs_zero]
    exact hpositive
  · rw [if_neg hzero]
    obtain ⟨dividend, divisor, halign, hdividend, hdivisor⟩ := alignWide_eq a b
    rw [Fallible.bind_ok halign]
    dsimp only
    have ha := a.rational_aligned b.scale
    have hb := b.rational_aligned a.scale
    rw [max_comm] at hb
    rw [← hdividend] at ha
    rw [← hdivisor] at hb
    have hten : (0 : ℚ) < 10 ^ max a.scale b.scale := by positivity
    have hdivides : 0 < divisor.toNat := by
      rw [hdivisor]
      exact Nat.mul_pos (Nat.pos_of_ne_zero h) (Nat.pow_pos (by decide))
    have hroom : divisor.toNat ≤ 2 ^ 191 := hdivisor ▸ (aligned_lt b a).le
    -- a magnitude below the divisor's is less than it
    have hless : ∀ magnitude : Nat, magnitude < divisor.toNat →
        (magnitude : ℚ) / 10 ^ max a.scale b.scale < |b.rational| := by
      intro magnitude hmagnitude
      rw [hb, abs_sign _ (by positivity), div_lt_div_iff_of_pos_right hten]
      exact_mod_cast hmagnitude
    by_cases hbelow : dividend.toNat < divisor.toNat
    · have hcompare : dividend.compare divisor = .lt := by
        rw [U192.compare_eq]
        exact compare_lt_iff_lt.mpr hbelow
      rw [if_pos hcompare]
      refine ⟨a, rfl, ⟨0, by simp⟩, ?_, .inr rfl⟩
      rw [ha, abs_sign _ (by positivity)]
      exact hless _ hbelow
    · have hcompare : ¬ dividend.compare divisor = .lt := by
        rw [U192.compare_eq, compare_lt_iff_lt]
        exact hbelow
      rw [if_neg hcompare]
      obtain ⟨-, hremainder⟩ := dividend.dividedBy_toNat hdivides hroom
      have hmod : dividend.toNat % divisor.toNat < divisor.toNat := Nat.mod_lt _ hdivides
      -- one of the two mantissas was not multiplied
      have hfits : dividend.toNat % divisor.toNat ≤ maxUnits := by
        rcases Nat.le_total a.scale b.scale with hle | hle
        · have hsame : divisor.toNat = b.units := by
            rw [hdivisor, Nat.sub_eq_zero_of_le hle, pow_zero, Nat.mul_one]
          exact hmod.le.trans (hsame ▸ b.fits)
        · have hsame : dividend.toNat = a.units := by
            rw [hdividend, Nat.sub_eq_zero_of_le hle, pow_zero, Nat.mul_one]
          exact (Nat.mod_le _ _).trans (hsame ▸ a.fits)
      have hmantissa : (dividend.dividedBy divisor).2.fitsMantissa = true := by
        rw [U192.fitsMantissa_iff, hremainder]
        exact hfits
      have hunits : (dividend.dividedBy divisor).2.toU128 = dividend.toNat % divisor.toNat := by
        have hmax : maxUnits < 2 ^ 128 := by decide
        rw [U192.toU128_eq (by rw [hremainder]; exact Nat.lt_of_le_of_lt hfits hmax), hremainder]
      rw [dif_pos hmantissa]
      obtain ⟨q, hq⟩ := remainder_of_magnitudes ha hb
      refine ⟨_, rfl, ⟨q, ?_⟩, ?_, ?_⟩
      · rw [make_rational]
        dsimp only
        rw [hunits]
        exact hq
      · rw [make_rational]
        dsimp only
        rw [hunits, abs_sign _ (by positivity)]
        exact hless _ hmod
      · show (dividend.dividedBy divisor).2.toU128 = 0 ∨
          (a.negative && decide ((dividend.dividedBy divisor).2.toU128 ≠ 0)) = a.negative
        by_cases hnone : (dividend.dividedBy divisor).2.toU128 = 0
        · exact .inl hnone
        · right
          rw [decide_eq_true hnone, Bool.and_true]

/-- Ten and a half, and three. -/
theorem modulo_exact_three :
    let three : Decimal := ⟨3, 0, false, by decide, by decide, by decide⟩
    ∃ r, modulo ⟨105, 1, false, by decide, by decide, by decide⟩ three = .ok r ∧ |r.rational| < |three.rational| := by
  intro three
  obtain ⟨r, hr, -, hless, -⟩ := modulo_exact ⟨105, 1, false, by decide, by decide, by decide⟩ three (by decide)
  exact ⟨r, hr, hless⟩

end Decimal
end Agiru
