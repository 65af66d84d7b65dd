import Agiru.Library.Bytes
import Mathlib.Tactic.FieldSimp
import Mathlib.Tactic.Positivity

/-! The decimal number: a mantissa of at most 96 bits, a scale of at most 28 and a
sign, which a zero never carries.

Two decimals are aligned by multiplying the one of fewer places by ten, in 192 bits;
`align_ok` shows that this never overflows. `compare_eq` says that they compare as
the numbers they are, and as the rational numbers they stand for. -/
namespace Agiru

/-- Why a decimal operation raises. -/
inductive DecimalError
  | overflow
  | aligning
  | parsing
  | secondPoint
  | notNumber
  | noDigit
  | divisionByZero
  | scaling
  | moduloByZero
  | remainder
  | noPrecision
  | negativePrecision
  deriving Repr, DecidableEq

def DecimalError.text : DecimalError → Bytes
  | overflow => Bytes.ascii "Decimal: overflow beyond 2^96 - 1"
  | aligning => Bytes.ascii "Decimal: overflow while aligning magnitudes"
  | parsing => Bytes.ascii "Decimal: overflow while parsing"
  | secondPoint => Bytes.ascii "Decimal: second decimal point"
  | notNumber => Bytes.ascii "Decimal: not a number"
  | noDigit => Bytes.ascii "Decimal: no digit"
  | divisionByZero => Bytes.ascii "Decimal: division by zero"
  | scaling => Bytes.ascii "Decimal: overflow while scaling the quotient"
  | moduloByZero => Bytes.ascii "Decimal: modulo by zero"
  | remainder => Bytes.ascii "Decimal: remainder exceeds the 96-bit mantissa"
  | noPrecision => Bytes.ascii "Round: precision is zero"
  | negativePrecision => Bytes.ascii "Round: precision must be positive"

abbrev maxScale : Nat := 28
abbrev maxUnits : Nat := 2 ^ 96 - 1

structure Decimal where
  units : Nat
  scale : Nat
  negative : Bool
  fits : units ≤ maxUnits
  places : scale ≤ maxScale
  signed : negative = true → units ≠ 0
  deriving Repr, DecidableEq

/-- A mantissa and a scale that a decimal can hold. -/
structure Magnitude where
  units : Nat
  scale : Nat
  fits : units ≤ maxUnits
  places : scale ≤ maxScale

/-- The digits dropped so far: the last one, and whether another was not zero. -/
structure RoundingTail where
  digit : Nat := 0
  sticky : Bool := false

def RoundingTail.prepend (tail : RoundingTail) (digit : Nat) : RoundingTail :=
  ⟨digit, tail.sticky || tail.digit ≠ 0⟩

def RoundingTail.append (tail : RoundingTail) (digit : Nat) : RoundingTail :=
  {tail with sticky := tail.sticky || digit ≠ 0}

/-- Half to even. -/
def RoundingTail.increments (tail : RoundingTail) (value : Nat) : Bool :=
  5 < tail.digit || (tail.digit = 5 && (tail.sticky || value % 2 = 1))

/-- The value rounded by its tail, where it fits. -/
def fitted (value scale : Nat) (tail : RoundingTail) : Option Magnitude :=
  let rounded := if tail.increments value then value + 1 else value
  if h : scale ≤ maxScale ∧ value ≤ maxUnits ∧ rounded ≤ maxUnits then
    some ⟨rounded, scale, h.2.2, h.1⟩
  else none

/-- `FitToUnits`: places are given up until the value fits. -/
def fitToUnits (value : Nat) (tail : RoundingTail) : Nat → Except DecimalError Magnitude
  | 0 =>
    match fitted value 0 tail with
    | some m => .ok m
    | none => .error .overflow
  | scale + 1 =>
    match fitted value (scale + 1) tail with
    | some m => .ok m
    | none => fitToUnits (value / 10) (tail.prepend (value % 10)) scale

/-- `U192::TimesTen`, as often as `Align` repeats it. -/
def timesTen (a : Nat) : Nat → Except DecimalError Nat
  | 0 => .ok a
  | count + 1 => if a * 10 < 2 ^ 192 then timesTen (a * 10) count else .error .aligning

namespace Decimal

def make (m : Magnitude) (negative : Bool) : Decimal :=
  ⟨m.units, m.scale, negative && m.units ≠ 0, m.fits, m.places, by simp⟩

def zero : Decimal := ⟨0, 0, false, by decide, by decide, by simp⟩

/-- `Align`: both magnitudes at the greater scale. -/
def align (a b : Decimal) : Except DecimalError (Nat × Nat) := do
  let left ← timesTen a.units (b.scale - a.scale)
  let right ← timesTen b.units (a.scale - b.scale)
  return (left, right)

/-- `operator+=`. -/
def add (a b : Decimal) : Except DecimalError Decimal := do
  let (left, right) ← align a b
  let (sum, negative) :=
    if a.negative = b.negative then (left + right, a.negative)
    else if right ≤ left then (left - right, a.negative)
    else (right - left, b.negative)
  let m ← fitToUnits sum {} (max a.scale b.scale)
  return make m negative

/-- `operator<=>`. Two decimals always align. -/
def compare (a b : Decimal) : Ordering :=
  if a.units = 0 ∧ b.units = 0 then .eq
  else if a.negative ≠ b.negative then if a.negative then .lt else .gt
  else
    match align a b with
    | .error _ => .eq
    | .ok (left, right) =>
      if a.negative then (Ord.compare left right).swap else Ord.compare left right

/-- `ToInvariantString`. -/
def toInvariantString (d : Decimal) : Bytes :=
  let digits := Bytes.natText d.units
  let padded := List.replicate (d.scale + 1 - digits.length) Bytes.Ch.zero ++ digits
  let text :=
    if d.scale = 0 then digits
    else padded.take (padded.length - d.scale) ++ [Bytes.Ch.dot] ++
      padded.drop (padded.length - d.scale)
  (if d.negative then [Bytes.Ch.minus] else []) ++ text

end Decimal

/-! ### Reading a decimal -/

/-- The magnitude read so far; once a digit was dropped, every later one is. -/
structure ParsedMagnitude where
  units : Nat := 0
  scale : Nat := 0
  dropping : Bool := false
  tail : RoundingTail := {}

def ParsedMagnitude.append (m : ParsedMagnitude) (digit : Nat) (fractional : Bool) :
    Except DecimalError ParsedMagnitude :=
  if m.dropping then .ok {m with tail := m.tail.append digit}
  else if fractional && (m.scale = maxScale || (maxUnits - digit) / 10 < m.units) then
    .ok {m with dropping := true, tail := m.tail.prepend digit}
  else if (maxUnits - digit) / 10 < m.units then .error .parsing
  else .ok {m with
    units := m.units * 10 + digit
    scale := if fractional then m.scale + 1 else m.scale}

/-- The digits and the point of `FromInvariantString`. -/
def readMagnitude (seenDigit seenPoint : Bool) (m : ParsedMagnitude) :
    Bytes → Except DecimalError ParsedMagnitude
  | [] => if seenDigit then .ok m else .error .noDigit
  | c :: rest =>
    if c = Bytes.Ch.dot then
      if seenPoint then .error .secondPoint else readMagnitude seenDigit true m rest
    else if !Bytes.isDigit c then .error .notNumber
    else
      match m.append (c.toNat - 48) seenPoint with
      | .error e => .error e
      | .ok next => readMagnitude true seenPoint next rest

/-- `FromInvariantString`. -/
def Decimal.fromInvariantString (text : Bytes) : Except DecimalError Decimal := do
  let text := text.dropWhile Bytes.isSpace
  let (negative, text) :=
    match text with
    | c :: rest =>
      if c = Bytes.Ch.plus then (false, rest)
      else if c = Bytes.Ch.minus then (true, rest)
      else (false, text)
    | [] => (false, [])
  let m ← readMagnitude false false {} text
  let fit ← fitToUnits m.units m.tail m.scale
  return Decimal.make fit negative

/-! ### The order -/

theorem timesTen_ok {a count : Nat} (h : a * 10 ^ count < 2 ^ 192) :
    timesTen a count = .ok (a * 10 ^ count) := by
  induction count generalizing a with
  | zero => simp [timesTen]
  | succ count ih =>
    have hnext : a * 10 * 10 ^ count < 2 ^ 192 := by
      rw [Nat.mul_assoc, ← Nat.pow_succ']
      exact h
    have hten : a * 10 < 2 ^ 192 :=
      Nat.lt_of_le_of_lt (Nat.le_mul_of_pos_right _ (Nat.pow_pos (by decide))) hnext
    rw [timesTen, if_pos hten, ih hnext, Nat.mul_assoc, ← Nat.pow_succ']

namespace Decimal

theorem align_ok (a b : Decimal) :
    align a b = .ok (a.units * 10 ^ (b.scale - a.scale), b.units * 10 ^ (a.scale - b.scale)) := by
  have hbound : ∀ c d : Decimal, c.units * 10 ^ (d.scale - c.scale) < 2 ^ 192 := by
    intro c d
    have hplaces : d.scale - c.scale ≤ 28 := Nat.le_trans (Nat.sub_le _ _) d.places
    calc c.units * 10 ^ (d.scale - c.scale)
        ≤ (2 ^ 96 - 1) * 10 ^ 28 :=
          Nat.mul_le_mul c.fits (Nat.pow_le_pow_right (by decide) hplaces)
      _ < 2 ^ 192 := by norm_num
  simp [align, timesTen_ok (hbound a b), timesTen_ok (hbound b a), bind, Except.bind, pure, Except.pure]

/-- The number a decimal is, in units of the last place any decimal has. -/
def value (d : Decimal) : Int :=
  let magnitude : Nat := d.units * 10 ^ (maxScale - d.scale)
  if d.negative then -magnitude else magnitude

/-- The magnitudes at the scale every decimal can be brought to. -/
theorem compare_aligned (a b : Decimal) :
    cmp (a.units * 10 ^ (b.scale - a.scale)) (b.units * 10 ^ (a.scale - b.scale)) =
      cmp (a.units * 10 ^ (maxScale - a.scale)) (b.units * 10 ^ (maxScale - b.scale)) := by
  have hplaces : ∀ c d : Decimal, c.units * 10 ^ (maxScale - c.scale) =
      c.units * 10 ^ (d.scale - c.scale) * 10 ^ (maxScale - max c.scale d.scale) := by
    intro c d
    have hc := c.places
    have hd := d.places
    rw [Nat.mul_assoc, ← Nat.pow_add]
    congr 2
    omega
  rw [hplaces a b, hplaces b a, max_comm b.scale]
  have hscale : StrictMono fun x : Nat => x * 10 ^ (maxScale - max a.scale b.scale) :=
    fun _ _ h => Nat.mul_lt_mul_of_pos_right h (Nat.pow_pos (by decide))
  exact (hscale.cmp_map_eq _ _).symm

/-- A decimal compares as the number it is. -/
theorem compare_eq (a b : Decimal) : a.compare b = Ord.compare a.value b.value := by
  have hpos : ∀ d : Decimal, d.negative = true → 0 < d.units * 10 ^ (maxScale - d.scale) :=
    fun d hd => Nat.mul_pos (Nat.pos_of_ne_zero (d.signed hd)) (Nat.pow_pos (by decide))
  have hvalue : ∀ d : Decimal, d.units = 0 → d.value = 0 := by
    intro d hd
    simp [value, hd]
  unfold compare
  split
  · next h => simp [hvalue a h.1, hvalue b h.2]
  · next h =>
    split
    · next hsign =>
      cases ha : a.negative with
      | true =>
        have hb : b.negative = false := by simpa [ha] using hsign
        have := hpos a ha
        have hlt : a.value < b.value := by
          simp only [value, ha, hb, if_true, if_false, Bool.false_eq_true]
          omega
        simp [compare_lt_iff_lt.mpr hlt]
      | false =>
        have hb : b.negative = true := by simpa [ha] using hsign
        have := hpos b hb
        have hgt : b.value < a.value := by
          simp only [value, ha, hb, if_true, if_false, Bool.false_eq_true]
          omega
        simp [compare_gt_iff_gt.mpr hgt]
    · next hsign =>
      have hsame : b.negative = a.negative := by
        simpa using (not_not.mp hsign).symm
      rw [align_ok]
      dsimp only
      rw [← cmp_eq_compare, ← cmp_eq_compare, compare_aligned, value, value, hsame]
      cases ha : a.negative with
      | true =>
        have hanti : StrictAnti fun x : Nat => -(x : Int) := fun _ _ h =>
          Int.neg_lt_neg (Int.ofNat_lt.mpr h)
        rw [if_pos rfl, if_pos rfl, if_pos rfl, cmp_swap]
        exact (hanti.cmp_map_eq _ _).symm
      | false =>
        have hmono : StrictMono fun x : Nat => (x : Int) := fun _ _ h => Int.ofNat_lt.mpr h
        rw [if_neg Bool.false_ne_true, if_neg Bool.false_ne_true, if_neg Bool.false_ne_true]
        exact (hmono.cmp_map_eq _ _).symm

end Decimal

/-! ### The rational number -/

/-- The rational number that a decimal is. -/
def Decimal.rational (d : Decimal) : ℚ := d.value / 10 ^ 28

theorem Decimal.rational_eq (d : Decimal) :
    d.rational = (if d.negative then -1 else 1) * (d.units / 10 ^ d.scale) := by
  have hplaces : d.scale ≤ 28 := d.places
  have hmax : maxScale = 28 := rfl
  have hten : (10 : ℚ) ^ 28 = 10 ^ d.scale * 10 ^ (maxScale - d.scale) := by
    rw [← pow_add]
    congr 1
    omega
  have hscale : (10 : ℚ) ^ d.scale ≠ 0 := pow_ne_zero _ (by norm_num)
  have hrest : (10 : ℚ) ^ (maxScale - d.scale) ≠ 0 := pow_ne_zero _ (by norm_num)
  rw [rational, value, hten]
  cases d.negative <;> simp only [if_true, if_false, Bool.false_eq_true] <;> push_cast <;> field_simp

theorem Decimal.abs_rational (d : Decimal) : |d.rational| = d.units / 10 ^ d.scale := by
  have hnonneg : (0 : ℚ) ≤ d.units / 10 ^ d.scale := by positivity
  rw [d.rational_eq]
  cases d.negative <;> simp [abs_of_nonneg hnonneg]

/-- Decimals compare as the numbers they are. -/
theorem Decimal.compare_rational (a b : Decimal) : a.compare b = cmp a.rational b.rational := by
  have hmono : StrictMono fun n : ℤ => (n : ℚ) / 10 ^ 28 := by
    intro m n h
    have hpos : (0 : ℚ) < 10 ^ 28 := by positivity
    exact div_lt_div_of_pos_right (by exact_mod_cast h) hpos
  rw [compare_eq, ← cmp_eq_compare]
  exact (hmono.cmp_map_eq a.value b.value).symm

end Agiru
