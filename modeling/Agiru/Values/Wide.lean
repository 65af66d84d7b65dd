import Agiru.Values.Decimal

/-! `U192`: the sums and products of mantissas, in three limbs of 64 bits.

The limbs carry and borrow by hand, in 128 bits; each operation's theorem says what it does to the
number that the limbs are. -/
namespace Agiru

/-- What 128 bits keep of a number. -/
def u128 (n : Nat) : Nat := n % 2 ^ 128

/-- `static_cast<std::uint64_t>`. -/
def limb (n : Nat) : UInt64 := UInt64.ofNat n

@[simp] theorem limb_toNat (n : Nat) : (limb n).toNat = n % 2 ^ 64 := UInt64.toNat_ofNat'

/-- The limbs, the lowest first. -/
structure U192 where
  low : UInt64 := 0
  middle : UInt64 := 0
  high : UInt64 := 0
  deriving DecidableEq

namespace U192
variable (w v : U192)

/-- The number that the limbs are. -/
def toNat : Nat := w.low.toNat + 2 ^ 64 * w.middle.toNat + 2 ^ 128 * w.high.toNat

/-- `From`. -/
def ofUnits (units : Nat) : U192 := {low := limb units, middle := limb (units / 2 ^ 64)}

def fitsU128 : Bool := w.high = 0

def toU128 : Nat := u128 (w.middle.toNat * 2 ^ 64) ||| w.low.toNat

/-- `Increment`: up to the first limb that does not wrap. -/
def increment : U192 :=
  if w.low + 1 ≠ 0 then {w with low := w.low + 1}
  else if w.middle + 1 ≠ 0 then ⟨0, w.middle + 1, w.high⟩
  else ⟨0, 0, w.high + 1⟩

/-- `TimesTen`, where no carry is left. -/
def timesTen : Option U192 :=
  let t₀ := u128 (w.low.toNat * 10)
  let t₁ := u128 (w.middle.toNat * 10 + t₀ / 2 ^ 64)
  let t₂ := u128 (w.high.toNat * 10 + t₁ / 2 ^ 64)
  if t₂ / 2 ^ 64 = 0 then some ⟨limb t₀, limb t₁, limb t₂⟩ else none

/-- `DivModSmall`: the quotient and the remainder. -/
def divModSmall (d : Nat) : U192 × Nat :=
  let high := w.high.toNat
  let middle := u128 (high % d * 2 ^ 64) ||| w.middle.toNat
  let low := u128 (middle % d * 2 ^ 64) ||| w.low.toNat
  (⟨limb (low / d), limb (middle / d), limb (high / d)⟩, low % d)

/-- `operator<=>`, from the highest limb on. -/
def compare : Ordering :=
  if w.high ≠ v.high then if w.high < v.high then .lt else .gt
  else if w.middle ≠ v.middle then if w.middle < v.middle then .lt else .gt
  else if w.low ≠ v.low then if w.low < v.low then .lt else .gt
  else .eq

/-- `operator+=`. -/
def add : U192 :=
  let t₀ := u128 (w.low.toNat + v.low.toNat)
  let t₁ := u128 (w.middle.toNat + v.middle.toNat + t₀ / 2 ^ 64)
  let t₂ := u128 (w.high.toNat + v.high.toNat + t₁ / 2 ^ 64)
  ⟨limb t₀, limb t₁, limb t₂⟩

/-- The borrow that a limb leaves. -/
def borrows (lhs rhs borrow : UInt64) : UInt64 :=
  if lhs < rhs ∨ (lhs = rhs ∧ borrow = 1) ∨ (rhs < lhs ∧ lhs - rhs < borrow) then 1 else 0

/-- `operator-=`. -/
def sub : U192 :=
  let b₀ := borrows w.low v.low 0
  let b₁ := borrows w.middle v.middle b₀
  ⟨w.low - v.low - 0, w.middle - v.middle - b₀, w.high - v.high - b₁⟩

/-- `MultipliedBy`, of a number of 128 bits. -/
def multipliedBy (b : Nat) : U192 :=
  let a := w.toU128
  let a₀ := (limb a).toNat
  let a₁ := (limb (a / 2 ^ 64)).toNat
  let b₀ := (limb b).toNat
  let b₁ := (limb (b / 2 ^ 64)).toNat
  let p₀₀ := u128 (a₀ * b₀)
  let p₀₁ := u128 (a₀ * b₁)
  let p₁₀ := u128 (a₁ * b₀)
  let p₁₁ := u128 (a₁ * b₁)
  let mid := u128 (p₀₀ / 2 ^ 64 + (limb p₀₁).toNat + (limb p₁₀).toNat)
  ⟨limb p₀₀, limb mid, limb (u128 (mid / 2 ^ 64 + p₀₁ / 2 ^ 64 + p₁₀ / 2 ^ 64 + p₁₁))⟩

/-! ### The numbers that they are -/

variable {w v}

theorem toNat_lt (w : U192) : w.toNat < 2 ^ 192 := by
  have := w.low.toNat_lt
  have := w.middle.toNat_lt
  have := w.high.toNat_lt
  unfold toNat
  omega

theorem u128_of_lt {n : Nat} (h : n < 2 ^ 128) : u128 n = n := Nat.mod_eq_of_lt h

/-- A limb set into the place of zeros. -/
theorem shift_or {a b : Nat} (ha : a < 2 ^ 64) (hb : b < 2 ^ 64) : u128 (a * 2 ^ 64) ||| b = a * 2 ^ 64 + b := by
  rw [u128_of_lt (by omega), ← Nat.shiftLeft_eq, Nat.shiftLeft_add_eq_or_of_lt hb]

theorem ofUnits_toNat {units : Nat} (h : units < 2 ^ 128) : (ofUnits units).toNat = units := by
  simp only [ofUnits, toNat, limb_toNat, UInt64.toNat_zero]
  omega

theorem fitsU128_iff : w.fitsU128 = true ↔ w.toNat < 2 ^ 128 := by
  have hlow := w.low.toNat_lt
  have hmiddle := w.middle.toNat_lt
  rw [fitsU128, decide_eq_true_eq, ← UInt64.toNat_inj, UInt64.toNat_zero, toNat]
  omega

theorem toU128_eq (h : w.toNat < 2 ^ 128) : w.toU128 = w.toNat := by
  have hhigh : w.high = 0 := by simpa [fitsU128] using fitsU128_iff.mpr h
  rw [toU128, shift_or w.middle.toNat_lt w.low.toNat_lt, toNat, hhigh, UInt64.toNat_zero]
  omega

theorem wraps_iff (limb : UInt64) : limb + 1 = 0 ↔ limb.toNat = 2 ^ 64 - 1 := by
  have hlt := limb.toNat_lt
  rw [← UInt64.toNat_inj, UInt64.toNat_add, UInt64.toNat_zero, UInt64.toNat_one]
  omega

theorem increment_toNat (h : w.toNat + 1 < 2 ^ 192) : w.increment.toNat = w.toNat + 1 := by
  have hlow := w.low.toNat_lt
  have hmiddle := w.middle.toNat_lt
  have hhigh := w.high.toNat_lt
  have hnext : ∀ limb : UInt64, ¬ limb + 1 = 0 → (limb + 1).toNat = limb.toNat + 1 := by
    intro limb hlimb
    have hlt := limb.toNat_lt
    rw [wraps_iff] at hlimb
    rw [UInt64.toNat_add, UInt64.toNat_one, Nat.mod_eq_of_lt (by omega)]
  unfold increment
  split
  · rename_i hfirst
    simp only [toNat, hnext _ hfirst]
    omega
  · rename_i hfirst
    rw [not_not, wraps_iff] at hfirst
    split
    · rename_i hsecond
      simp only [toNat, hnext _ hsecond, UInt64.toNat_zero, hfirst]
      omega
    · rename_i hsecond
      rw [not_not, wraps_iff] at hsecond
      have hthird : ¬ w.high + 1 = 0 := by
        rw [wraps_iff]
        unfold toNat at h
        omega
      simp only [toNat, hnext _ hthird, UInt64.toNat_zero, hfirst, hsecond]
      omega

/-- It overflows where the product has no room. -/
theorem timesTen_eq :
    (w.toNat * 10 < 2 ^ 192 → ∃ out, w.timesTen = some out ∧ out.toNat = w.toNat * 10) ∧
      (2 ^ 192 ≤ w.toNat * 10 → w.timesTen = none) := by
  have hlow := w.low.toNat_lt
  have hmiddle := w.middle.toNat_lt
  have hhigh := w.high.toNat_lt
  have h₀ : w.low.toNat * 10 < 2 ^ 128 := by omega
  have h₁ : w.middle.toNat * 10 + w.low.toNat * 10 / 2 ^ 64 < 2 ^ 128 := by omega
  have h₂ : w.high.toNat * 10 + (w.middle.toNat * 10 + w.low.toNat * 10 / 2 ^ 64) / 2 ^ 64 < 2 ^ 128 := by omega
  simp only [timesTen, u128_of_lt h₀, u128_of_lt h₁, u128_of_lt h₂]
  unfold toNat
  constructor
  · intro h
    rw [if_pos (by omega)]
    refine ⟨_, rfl, ?_⟩
    simp only [limb_toNat]
    omega
  · intro h
    rw [if_neg (by omega)]

theorem divModSmall_eq {d : Nat} (hpositive : 0 < d) (hd : d < 2 ^ 64) :
    (w.divModSmall d).1.toNat = w.toNat / d ∧ (w.divModSmall d).2 = w.toNat % d := by
  have hlow := w.low.toNat_lt
  have hmiddle := w.middle.toNat_lt
  have hhigh := w.high.toNat_lt
  have hrest : ∀ n, n % d < d := fun n => Nat.mod_lt n hpositive
  have h₂ := hrest w.high.toNat
  have h₁ := hrest (w.high.toNat % d * 2 ^ 64 + w.middle.toNat)
  simp only [divModSmall, shift_or (Nat.lt_trans h₂ hd) hmiddle, shift_or (Nat.lt_trans h₁ hd) hlow]
  -- each part of the dividend is less than the divisor by a limb
  have hquotient : ∀ {rem limb : Nat}, rem < d → limb < 2 ^ 64 → (rem * 2 ^ 64 + limb) / d < 2 ^ 64 := by
    intro rem limb hrem hlimb
    rw [Nat.div_lt_iff_lt_mul hpositive]
    have : (rem + 1) * 2 ^ 64 ≤ d * 2 ^ 64 := Nat.mul_le_mul_right _ hrem
    omega
  have hq₁ := hquotient h₂ hmiddle
  have hq₀ := hquotient h₁ hlow
  have hq₂ : w.high.toNat / d < 2 ^ 64 := Nat.lt_of_le_of_lt (Nat.div_le_self _ _) hhigh
  simp only [toNat, limb_toNat, Nat.mod_eq_of_lt hq₀, Nat.mod_eq_of_lt hq₁, Nat.mod_eq_of_lt hq₂]
  have e₂ := Nat.div_add_mod w.high.toNat d
  have e₁ := Nat.div_add_mod (w.high.toNat % d * 2 ^ 64 + w.middle.toNat) d
  have e₀ := Nat.div_add_mod ((w.high.toNat % d * 2 ^ 64 + w.middle.toNat) % d * 2 ^ 64 + w.low.toNat) d
  have hr := hrest ((w.high.toNat % d * 2 ^ 64 + w.middle.toNat) % d * 2 ^ 64 + w.low.toNat)
  set q₂ := w.high.toNat / d
  set q₁ := (w.high.toNat % d * 2 ^ 64 + w.middle.toNat) / d
  set q₀ := ((w.high.toNat % d * 2 ^ 64 + w.middle.toNat) % d * 2 ^ 64 + w.low.toNat) / d
  set r := ((w.high.toNat % d * 2 ^ 64 + w.middle.toNat) % d * 2 ^ 64 + w.low.toNat) % d
  have hall : w.low.toNat + 2 ^ 64 * w.middle.toNat + 2 ^ 128 * w.high.toNat =
      r + d * (q₀ + 2 ^ 64 * q₁ + 2 ^ 128 * q₂) := by
    have hsum : d * (q₀ + 2 ^ 64 * q₁ + 2 ^ 128 * q₂) = d * q₀ + 2 ^ 64 * (d * q₁) + 2 ^ 128 * (d * q₂) := by ring
    rw [hsum]
    omega
  rw [hall]
  constructor
  · rw [Nat.add_mul_div_left _ _ hpositive, Nat.div_eq_of_lt hr, Nat.zero_add]
  · rw [Nat.add_mul_mod_self_left, Nat.mod_eq_of_lt hr]

theorem compare_eq (w v : U192) : w.compare v = Ord.compare w.toNat v.toNat := by
  have hlow := w.low.toNat_lt
  have hmiddle := w.middle.toNat_lt
  have hlow' := v.low.toNat_lt
  have hmiddle' := v.middle.toNat_lt
  unfold compare
  simp only [ne_eq, ← UInt64.toNat_inj, UInt64.lt_iff_toNat_lt]
  have hless : w.toNat < v.toNat → Ord.compare w.toNat v.toNat = .lt := compare_lt_iff_lt.mpr
  have hmore : v.toNat < w.toNat → Ord.compare w.toNat v.toNat = .gt := compare_gt_iff_gt.mpr
  have hsame : w.toNat = v.toNat → Ord.compare w.toNat v.toNat = .eq := compare_eq_iff_eq.mpr
  unfold toNat at hless hmore hsame ⊢
  split
  · split
    · rw [hless (by omega)]
    · rw [hmore (by omega)]
  · split
    · split
      · rw [hless (by omega)]
      · rw [hmore (by omega)]
    · split
      · split
        · rw [hless (by omega)]
        · rw [hmore (by omega)]
      · rw [hsame (by omega)]

theorem add_toNat (h : w.toNat + v.toNat < 2 ^ 192) : (w.add v).toNat = w.toNat + v.toNat := by
  have hlow := w.low.toNat_lt
  have hmiddle := w.middle.toNat_lt
  have hhigh := w.high.toNat_lt
  have hlow' := v.low.toNat_lt
  have hmiddle' := v.middle.toNat_lt
  have hhigh' := v.high.toNat_lt
  unfold toNat at h ⊢
  simp only [add, limb_toNat, u128]
  omega

/-- What a limb of a difference owes the next. -/
theorem borrows_eq (lhs rhs : UInt64) {borrow : UInt64} (hborrow : borrow.toNat ≤ 1) :
    (borrows lhs rhs borrow).toNat ≤ 1 ∧
      (lhs - rhs - borrow).toNat + rhs.toNat + borrow.toNat =
        lhs.toNat + 2 ^ 64 * (borrows lhs rhs borrow).toNat := by
  have hlhs := lhs.toNat_lt
  have hrhs := rhs.toNat_lt
  unfold borrows
  simp only [UInt64.lt_iff_toNat_lt, ← UInt64.toNat_inj, UInt64.toNat_sub, UInt64.toNat_one]
  split
  · rw [UInt64.toNat_one]
    omega
  · rw [UInt64.toNat_zero]
    omega

theorem sub_toNat (h : v.toNat ≤ w.toNat) : (w.sub v).toNat = w.toNat - v.toNat := by
  have hlow := w.low.toNat_lt
  have hmiddle := w.middle.toNat_lt
  have hhigh := w.high.toNat_lt
  have hlow' := v.low.toNat_lt
  have hmiddle' := v.middle.toNat_lt
  have hhigh' := v.high.toNat_lt
  obtain ⟨hb₀, h₀⟩ := borrows_eq w.low v.low (by decide : (0 : UInt64).toNat ≤ 1)
  obtain ⟨hb₁, h₁⟩ := borrows_eq w.middle v.middle hb₀
  obtain ⟨hb₂, h₂⟩ := borrows_eq w.high v.high hb₁
  have hzero : (0 : UInt64).toNat = 0 := rfl
  -- were the last limb to borrow, the difference would be negative
  have hroom := (w.sub v).toNat_lt
  simp only [sub] at hroom ⊢
  unfold toNat at h hroom ⊢
  dsimp only at hroom ⊢
  omega

theorem multipliedBy_toNat {b : Nat} (hw : w.toNat < 2 ^ 96) (hb : b < 2 ^ 96) :
    (w.multipliedBy b).toNat = w.toNat * b := by
  simp only [multipliedBy, toU128_eq (Nat.lt_trans hw (by decide)), limb_toNat]
  generalize w.toNat = a at hw
  have ha₁ : a / 2 ^ 64 < 2 ^ 32 := by omega
  have hb₁ : b / 2 ^ 64 < 2 ^ 32 := by omega
  have ha₀ : a % 2 ^ 64 < 2 ^ 64 := Nat.mod_lt _ (by decide)
  have hb₀ : b % 2 ^ 64 < 2 ^ 64 := Nat.mod_lt _ (by decide)
  rw [Nat.mod_eq_of_lt (Nat.lt_trans ha₁ (by decide)), Nat.mod_eq_of_lt (Nat.lt_trans hb₁ (by decide))]
  have hsplit : a * b = a % 2 ^ 64 * (b % 2 ^ 64) + 2 ^ 64 *
      (a % 2 ^ 64 * (b / 2 ^ 64) + a / 2 ^ 64 * (b % 2 ^ 64)) +
      2 ^ 128 * (a / 2 ^ 64 * (b / 2 ^ 64)) := by
    conv_lhs => rw [← Nat.mod_add_div a (2 ^ 64), ← Nat.mod_add_div b (2 ^ 64)]
    ring
  have hp₀₀ : a % 2 ^ 64 * (b % 2 ^ 64) ≤ (2 ^ 64 - 1) * (2 ^ 64 - 1) := Nat.mul_le_mul (by omega) (by omega)
  have hp₀₁ : a % 2 ^ 64 * (b / 2 ^ 64) ≤ (2 ^ 64 - 1) * (2 ^ 32 - 1) := Nat.mul_le_mul (by omega) (by omega)
  have hp₁₀ : a / 2 ^ 64 * (b % 2 ^ 64) ≤ (2 ^ 32 - 1) * (2 ^ 64 - 1) := Nat.mul_le_mul (by omega) (by omega)
  have hp₁₁ : a / 2 ^ 64 * (b / 2 ^ 64) ≤ (2 ^ 32 - 1) * (2 ^ 32 - 1) := Nat.mul_le_mul (by omega) (by omega)
  rw [hsplit]
  generalize a % 2 ^ 64 * (b % 2 ^ 64) = p₀₀ at *
  generalize a % 2 ^ 64 * (b / 2 ^ 64) = p₀₁ at *
  generalize a / 2 ^ 64 * (b % 2 ^ 64) = p₁₀ at *
  generalize a / 2 ^ 64 * (b / 2 ^ 64) = p₁₁ at *
  simp only [toNat, u128, limb_toNat]
  omega

end U192
end Agiru
