import Agiru.Storage.DayOrder
import Agiru.Values.Field

/-! The order of codes.

Two codes of digits compare as numbers, any other two as texts. The comparison has a mirror, and no two codes but
equal ones and equal numbers are equal in it; it is no order where a code that is no number stands, as a text,
between two numbers that are the other way round as texts (`compareCode_order_iff`). The rows of a temporary table
are sorted by the codes' texts, whatever they compare as. -/
namespace Agiru.Text
open Bytes

/-- `IsAsciiDigits`. -/
def isAsciiDigits (text : Bytes) : Bool := text ≠ [] && text.all isDigit

/-- The digits from the first that is not zero. -/
def significantDigits (text : Bytes) : Bytes := text.dropWhile (· = Ch.zero)

/-- `CompareCode`. -/
def compareCode (a b : Bytes) : Ordering :=
  if isAsciiDigits a && isAsciiDigits b then
    let lhs := significantDigits a
    let rhs := significantDigits b
    if lhs.length ≠ rhs.length then if lhs.length < rhs.length then .lt else .gt
    else Ord.compare lhs rhs
  else Ord.compare a b

/-- Two numbers that are one way round as numbers and the other as texts, with a code that is no number between
their texts: the first, the second or the third of three codes. -/
def Crossed (a b c : Bytes) : Prop :=
  (isAsciiDigits a = false ∧ isAsciiDigits b = true ∧ isAsciiDigits c = true ∧
    digitsValue b ≤ digitsValue c ∧ Ord.compare c a = .lt ∧ Ord.compare a b ≠ .gt) ∨
  (isAsciiDigits a = true ∧ isAsciiDigits b = false ∧ isAsciiDigits c = true ∧
    digitsValue c < digitsValue a ∧ Ord.compare a b ≠ .gt ∧ Ord.compare b c ≠ .gt) ∨
  (isAsciiDigits a = true ∧ isAsciiDigits b = true ∧ isAsciiDigits c = false ∧
    digitsValue a ≤ digitsValue b ∧ Ord.compare b c ≠ .gt ∧ Ord.compare c a = .lt)

/-! ### Numbers -/

theorem digits_of_isAsciiDigits {text : Bytes} (h : isAsciiDigits text = true) : Digits text := by
  simp only [isAsciiDigits, Bool.and_eq_true, List.all_eq_true] at h
  exact h.2

theorem significantDigits_value (text : Bytes) : digitsValue (significantDigits text) = digitsValue text :=
  digitsValue_dropZeros text

theorem significantDigits_digits {text : Bytes} (h : Digits text) : Digits (significantDigits text) :=
  h.sublist (List.dropWhile_sublist _)

/-- More digits, the first of them not zero, are a larger number. -/
theorem significant_lt {a b : Bytes} (ha : Digits a) (hb : Digits b)
    (h : (significantDigits a).length < (significantDigits b).length) : digitsValue a < digitsValue b := by
  have hlow := digitsValue_lt (significantDigits_digits ha)
  have hhigh : 10 ^ (significantDigits a).length ≤ digitsValue (significantDigits b) := by
    have hdigits := significantDigits_digits hb
    cases hcons : significantDigits b with
    | nil =>
      rw [hcons] at h
      exact absurd h (Nat.not_lt_zero _)
    | cons c rest =>
      rw [hcons] at h hdigits
      have hc : c ≠ Ch.zero := by
        have hhead := List.head?_dropWhile_not (· = Ch.zero) b
        rw [show b.dropWhile (· = Ch.zero) = c :: rest from hcons] at hhead
        simpa using hhead
      exact Nat.le_trans (Nat.pow_le_pow_right (by decide) (Nat.le_of_lt_succ h)) (pow_le_digitsValue hdigits hc)
  rw [significantDigits_value] at hlow hhigh
  exact Nat.lt_of_lt_of_le hlow hhigh

/-- Codes of digits compare as numbers. -/
theorem compareCode_numbers {a b : Bytes} (ha : isAsciiDigits a = true) (hb : isAsciiDigits b = true) :
    compareCode a b = Ord.compare (digitsValue a) (digitsValue b) := by
  have hda := digits_of_isAsciiDigits ha
  have hdb := digits_of_isAsciiDigits hb
  rw [compareCode, if_pos (by rw [ha, hb]; rfl)]
  by_cases hlength : (significantDigits a).length = (significantDigits b).length
  · rw [if_neg (not_not.mpr hlength), Storage.compare_digits (significantDigits_digits hda)
      (significantDigits_digits hdb) hlength, significantDigits_value, significantDigits_value]
  · rw [if_pos hlength]
    split
    · next hlt => rw [compare_lt_iff_lt.mpr (significant_lt hda hdb hlt)]
    · next hge => rw [compare_gt_iff_gt.mpr (significant_lt hdb hda (by omega))]

theorem compareCode_texts {a b : Bytes} (h : ¬ (isAsciiDigits a = true ∧ isAsciiDigits b = true)) :
    compareCode a b = Ord.compare a b := by
  rw [compareCode, if_neg (by rwa [Bool.and_eq_true])]

theorem compareCode_swap (a b : Bytes) : compareCode b a = (compareCode a b).swap := by
  by_cases h : isAsciiDigits a = true ∧ isAsciiDigits b = true
  · rw [compareCode_numbers h.1 h.2, compareCode_numbers h.2 h.1]
    exact Std.OrientedCmp.eq_swap
  · rw [compareCode_texts h, compareCode_texts (fun hba => h hba.symm)]
    exact Std.OrientedCmp.eq_swap

theorem compareCode_eq_iff (a b : Bytes) : compareCode a b = .eq ↔
    a = b ∨ (isAsciiDigits a = true ∧ isAsciiDigits b = true ∧ digitsValue a = digitsValue b) := by
  by_cases h : isAsciiDigits a = true ∧ isAsciiDigits b = true
  · rw [compareCode_numbers h.1 h.2, compare_eq_iff_eq]
    exact ⟨fun heq => .inr ⟨h.1, h.2, heq⟩, fun heq => heq.elim (congrArg digitsValue) fun heq => heq.2.2⟩
  · rw [compareCode_texts h, Std.LawfulEqOrd.compare_eq_iff_eq]
    exact ⟨.inl, fun heq => heq.resolve_right fun heq => h ⟨heq.1, heq.2.1⟩⟩

theorem compareCode_le {a b : Bytes} : compareCode a b ≠ .gt ↔
    if isAsciiDigits a = true ∧ isAsciiDigits b = true then digitsValue a ≤ digitsValue b
    else Ord.compare a b ≠ .gt := by
  split
  · next h => rw [compareCode_numbers h.1 h.2, Ne, compare_gt_iff_gt, Nat.not_lt]
  · next h => rw [compareCode_texts h]

/-- The rows of a temporary table are in the order of the texts in a code. -/
theorem compareField_code {field : FieldDef} (h : field.type = .code) (x y : Record) :
    compareField x y field = Ord.compare (fieldText x field) (fieldText y field) := by
  rw [compareField, h]

theorem compareField_trans (field : FieldDef) {x y z : Record} (hxy : compareField x y field ≠ .gt)
    (hyz : compareField y z field ≠ .gt) : compareField x z field ≠ .gt := by
  have htrans := @Std.TransCmp.isLE_trans _ (fun a b => compareField a b field) _ x y z
  exact Ordering.ne_gt_iff_isLE.mpr (htrans (Ordering.ne_gt_iff_isLE.mp hxy) (Ordering.ne_gt_iff_isLE.mp hyz))

/-- **How far codes are in an order**: the comparison has a mirror, only equal codes and equal numbers are equal in
it, numbers are in their order, and three codes are in one order exactly if none that is no number crosses the
others. The rows of a temporary table are in the order of the texts. -/
theorem compareCode_order_iff (a b c : Bytes) :
    compareCode b a = (compareCode a b).swap ∧
      (compareCode a b = .eq ↔
        a = b ∨ (isAsciiDigits a = true ∧ isAsciiDigits b = true ∧ digitsValue a = digitsValue b)) ∧
      (isAsciiDigits a = true → isAsciiDigits b = true →
        compareCode a b = Ord.compare (digitsValue a) (digitsValue b)) ∧
      ((compareCode a b ≠ .gt → compareCode b c ≠ .gt → compareCode a c ≠ .gt) ↔ ¬ Crossed a b c) ∧
      ∀ field : FieldDef, field.type = .code → ∀ x y z : Record,
        compareField x y field = Ord.compare (fieldText x field) (fieldText y field) ∧
          (compareField x y field ≠ .gt → compareField y z field ≠ .gt → compareField x z field ≠ .gt) := by
  refine ⟨compareCode_swap a b, compareCode_eq_iff a b, compareCode_numbers, ?_, fun field hfield x y z =>
    ⟨compareField_code hfield x y, compareField_trans field⟩⟩
  have htexts : ∀ {x y z : Bytes}, Ord.compare x y ≠ .gt → Ord.compare y z ≠ .gt → Ord.compare x z ≠ .gt := by
    intro x y z hxy hyz
    exact Ordering.ne_gt_iff_isLE.mpr
      (Std.TransCmp.isLE_trans (Ordering.ne_gt_iff_isLE.mp hxy) (Ordering.ne_gt_iff_isLE.mp hyz))
  have hgt : ∀ {x y : Bytes}, Ord.compare y x = .lt ↔ ¬ Ord.compare x y ≠ .gt := by
    intro x y
    rw [not_not, Std.OrientedCmp.gt_iff_lt]
  rw [compareCode_le, compareCode_le, compareCode_le, Crossed, hgt]
  cases ha : isAsciiDigits a <;> cases hb : isAsciiDigits b <;> cases hc : isAsciiDigits c <;>
    simp only [Bool.false_eq_true, reduceCtorEq, and_true, and_false, true_and, false_and, if_true, if_false, or_false,
      false_or, not_false_eq_true, iff_true]
  case false.false.false => exact htexts
  case false.false.true => exact htexts
  case false.true.false => exact htexts
  case true.false.false => exact htexts
  case true.true.true => exact Nat.le_trans
  case false.true.true => tauto
  case true.false.true =>
    rw [← Nat.not_le]
    tauto
  case true.true.false => tauto

/-- Nine is before ten, ten before `1A`, and `1A` before nine. -/
theorem codes_in_a_circle : ¬ ∀ a b c, compareCode a b ≠ .gt → compareCode b c ≠ .gt → compareCode a c ≠ .gt := by
  intro h
  exact h (ascii "9") (ascii "10") (ascii "1A") (by decide) (by decide) (by decide)

end Agiru.Text
