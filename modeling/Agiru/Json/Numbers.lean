import Agiru.Json.Exact

/-! When the numbers of a JSON text are exact or refused. -/
namespace Agiru

namespace Json
open Bytes

/-! ### Rational numbers -/

/-- A number that a decimal is. -/
def Representable (v : ℚ) : Prop :=
  ∃ units scale : Nat, units ≤ maxUnits ∧ scale ≤ 28 ∧ |v| = units / 10 ^ scale

/-- A number with at most 28 places, less than half a unit beyond the greatest decimal, that is no
decimal: it has too many digits. -/
def Rounded (v : ℚ) : Prop :=
  (∃ n : ℤ, v * 10 ^ 28 = n) ∧ |v| < 2 ^ 96 - 1 / 2 ∧ ¬ Representable v

theorem representable_rational (d : Decimal) : Representable d.rational :=
  ⟨d.units, d.scale, d.fits, d.places, d.abs_rational⟩

/-- The magnitude of a number by digits that do not end in a zero after the point. -/
structure Canonical (v : ℚ) (units scale : Nat) : Prop where
  abs : |v| = units / 10 ^ scale
  last : scale ≠ 0 → units % 10 ≠ 0

section Canonical
variable {v : ℚ} {units scale : Nat}

/-- Digits of no more places are the same number by more digits. -/
theorem Canonical.scale_le (h : Canonical v units scale) {m k : Nat} (heq : |v| = m / 10 ^ k) :
    scale ≤ k ∧ m = units * 10 ^ (k - scale) := by
  have hk : (10 : ℚ) ^ k ≠ 0 := pow_ne_zero _ (by norm_num)
  have hs : (10 : ℚ) ^ scale ≠ 0 := pow_ne_zero _ (by norm_num)
  have hcross : units * 10 ^ k = m * 10 ^ scale := by
    have hrat : (units : ℚ) * 10 ^ k = m * 10 ^ scale := (div_eq_div_iff hs hk).mp (h.abs.symm.trans heq)
    exact_mod_cast hrat
  have hle : scale ≤ k := by
    by_contra hlt
    obtain ⟨more, rfl⟩ : ∃ more, scale = k + (more + 1) := ⟨scale - k - 1, by omega⟩
    have hunits : units = m * 10 ^ more * 10 := by
      apply Nat.eq_of_mul_eq_mul_right (Nat.pow_pos (by decide) : 0 < 10 ^ k)
      rw [hcross]
      ring
    exact h.last (by omega) (by rw [hunits]; exact Nat.mul_mod_left ..)
  refine ⟨hle, ?_⟩
  apply Nat.eq_of_mul_eq_mul_right (Nat.pow_pos (by decide) : 0 < 10 ^ scale)
  rw [← hcross, Nat.mul_assoc, ← Nat.pow_add, Nat.sub_add_cancel hle]

theorem Canonical.places_iff (h : Canonical v units scale) : (∃ n : ℤ, v * 10 ^ 28 = n) ↔ scale ≤ 28 := by
  constructor
  · rintro ⟨n, hn⟩
    have habs : |v| = n.natAbs / 10 ^ 28 := by
      have hten : |(10 : ℚ) ^ 28| = 10 ^ 28 := abs_of_nonneg (by positivity)
      have hcast : |(n : ℚ)| = n.natAbs := by rw [Nat.cast_natAbs, Int.cast_abs]
      rw [eq_div_iff (by norm_num), ← hten, ← abs_mul, hn, hcast]
    exact (h.scale_le habs).1
  · intro hle
    have hten : (10 : ℚ) ^ 28 = 10 ^ scale * 10 ^ (28 - scale) := by
      rw [← pow_add]
      congr 1
      omega
    have hs : (10 : ℚ) ^ scale ≠ 0 := pow_ne_zero _ (by norm_num)
    have hmul : |v| * 10 ^ 28 = ((units * 10 ^ (28 - scale) : ℕ) : ℚ) := by
      rw [h.abs, hten]
      push_cast
      field_simp
    rcases abs_choice v with hv | hv
    · refine ⟨(units * 10 ^ (28 - scale) : ℕ), ?_⟩
      rw [hv] at hmul
      rw [hmul]
      push_cast
      rfl
    · refine ⟨-(units * 10 ^ (28 - scale) : ℕ), ?_⟩
      rw [hv] at hmul
      have hneg : v * 10 ^ 28 = -(-v * 10 ^ 28) := by ring
      rw [hneg, hmul]
      push_cast
      rfl

theorem Canonical.representable_iff (h : Canonical v units scale) :
    Representable v ↔ scale ≤ 28 ∧ units ≤ maxUnits := by
  constructor
  · rintro ⟨m, k, hm, hk, heq⟩
    obtain ⟨hle, hmunits⟩ := h.scale_le heq
    have hunits : units ≤ m := by
      rw [hmunits]
      exact Nat.le_mul_of_pos_right _ (Nat.pow_pos (by decide))
    exact ⟨by omega, by omega⟩
  · exact fun ⟨hscale, hunits⟩ => ⟨units, scale, hunits, hscale, h.abs⟩

theorem Canonical.lt_iff (h : Canonical v units scale) :
    |v| < 2 ^ 96 - 1 / 2 ↔ 2 * units < (2 ^ 97 - 1) * 10 ^ scale := by
  have hpos : (0 : ℚ) < 10 ^ scale := by positivity
  rw [h.abs, div_lt_iff₀ hpos]
  have hcast : (2 * units < (2 ^ 97 - 1) * 10 ^ scale) ↔ (2 * units : ℚ) < (2 ^ 97 - 1) * 10 ^ scale := by
    have hnat : ((2 ^ 97 - 1 : ℕ) : ℚ) = 2 ^ 97 - 1 := by norm_num
    rw [← hnat]
    exact_mod_cast Iff.rfl
  rw [hcast]
  constructor <;> intro hlt <;> linarith

theorem Canonical.rounded_iff (h : Canonical v units scale) :
    Rounded v ↔ scale ≤ 28 ∧ maxUnits < units ∧ 2 * units < (2 ^ 97 - 1) * 10 ^ scale := by
  rw [Rounded, h.places_iff, h.lt_iff, h.representable_iff]
  constructor
  · rintro ⟨hscale, hlt, hnot⟩
    exact ⟨hscale, by by_contra hle; exact hnot ⟨hscale, by omega⟩, hlt⟩
  · rintro ⟨hscale, hmore, hlt⟩
    exact ⟨hscale, hlt, fun hle => by omega⟩

end Canonical

theorem representable_zero : Representable 0 := ⟨0, 0, Nat.zero_le _, Nat.zero_le _, by simp⟩

theorem decimal_ext {a b : Decimal} (h : a.rational = b.rational) : a.compare b = .eq := by
  have hvalue : a.value = b.value := by
    have hten : (10 : ℚ) ^ 28 ≠ 0 := by norm_num
    have hcast : (a.value : ℚ) = b.value := (div_left_inj' hten).mp h
    exact_mod_cast hcast
  rw [Decimal.compare_eq, hvalue]
  exact compare_eq_iff_eq.mpr rfl

theorem compare_iff (a b : Decimal) : a.compare b = .eq ↔ a.rational = b.rational := by
  refine ⟨fun h => ?_, decimal_ext⟩
  rw [Decimal.compare_eq] at h
  rw [Decimal.rational, Decimal.rational, compare_eq_iff_eq.mp h]

/-! ### One number -/

section Number
variable (number : JsonNumber)

theorem value_abs :
    |number.value| = digitsValue (number.whole ++ number.fraction) * 10 ^ (-number.scale) := by
  have hpow : (0 : ℚ) < 10 ^ (-number.scale) := zpow_pos (by norm_num) _
  unfold JsonNumber.value
  rw [abs_mul, abs_mul, abs_of_pos hpow, Nat.abs_cast]
  cases number.negative <;> simp

theorem value_signed : number.value = (if number.negative then -1 else 1) * |number.value| := by
  rw [value_abs, JsonNumber.value, mul_assoc]

theorem value_eq_zero : number.value = 0 ↔ digitsValue (number.whole ++ number.fraction) = 0 := by
  have hpow : (10 : ℚ) ^ (-number.scale) ≠ 0 := zpow_ne_zero _ (by norm_num)
  rw [← abs_eq_zero, value_abs, mul_eq_zero, or_iff_left hpow, Nat.cast_eq_zero]

theorem exact_zero (hfits : Fits64 number.exponentValue) (hzero : number.value = 0) :
    exactJsonDecimal number.text = .ok (ascii "0") := by
  have hdrop := (digitsValue_eq_zero (number.whole_digits.append number.fraction_digits)).mp
    ((value_eq_zero number).mp hzero)
  unfold exactJsonDecimal
  simp only [text_unsigned, exponent_read, if_pos hfits, Fallible.bind_ok rfl, coefficient_read]
  rw [if_pos hdrop]
  rfl

theorem exact_unfit (hfits : ¬ Fits64 number.exponentValue) :
    exactJsonDecimal number.text = .error (ascii "JSON number exponent is out of range") := by
  unfold exactJsonDecimal
  simp only [text_unsigned, exponent_read, if_neg hfits]
  rfl

/-- What is written of a number that is not zero, with its magnitude. -/
theorem exact_canonical (hfits : Fits64 number.exponentValue) (hne : number.value ≠ 0) :
    ∃ whole fraction, Digits whole ∧ whole ≠ [] ∧ Digits fraction ∧
      Canonical number.value (digitsValue (whole ++ fraction)) fraction.length ∧
      (fraction.length ≤ 28 ∧ exactJsonDecimal number.text =
          .ok ((if number.negative then [Ch.minus] else []) ++ pointed whole fraction) ∨
        (28 < fraction.length ∨ 10 ^ 29 * 10 ^ fraction.length ≤ digitsValue (whole ++ fraction)) ∧
          ∃ e, exactJsonDecimal number.text = .error e) := by
  obtain ⟨whole, fraction, hwhole, hwholene, hfraction, hlast, hvalue, hrun⟩ :=
    exactJsonDecimal_spec hfits fun hzero => hne ((value_eq_zero number).mpr hzero)
  refine ⟨whole, fraction, hwhole, hwholene, hfraction, ⟨?_, fun hscale => hlast ?_⟩, ?_⟩
  · rw [value_abs, hvalue]
  · exact List.ne_nil_of_length_pos (Nat.pos_of_ne_zero hscale)
  · rcases hrun with hok | ⟨hlarge, herror⟩
    · exact .inl hok
    · exact .inr ⟨hlarge, _, herror⟩

theorem asDecimal_of_exact {text exact : Bytes} {d : Decimal} (h : exactJsonDecimal text = .ok exact)
    (hd : Decimal.fromInvariantString exact = .ok d) : asDecimal text = .ok d := by
  rw [asDecimal, Fallible.bind_ok h, hd]
  rfl

/-- What `AsDecimal` does: it is exact where the number is a decimal, it rounds where the number has
too many digits, and it refuses the others. -/
theorem asDecimal_spec (hfits : Fits64 number.exponentValue) :
    Representable number.value ∧ (∃ d, asDecimal number.text = .ok d ∧ d.rational = number.value) ∨
      Rounded number.value ∧ (∃ d, asDecimal number.text = .ok d) ∨
      ¬ Representable number.value ∧ ¬ Rounded number.value ∧ ∃ e, asDecimal number.text = .error e := by
  by_cases hzero : number.value = 0
  · refine .inl ⟨hzero ▸ representable_zero, ?_⟩
    obtain ⟨d, hd, hunits, -, -⟩ := fromInvariantString_exact false
      (show Digits (ascii "0") by decide +kernel) (by decide) (show Digits [] by decide +kernel) (by decide)
      (by decide)
    refine ⟨d, asDecimal_of_exact (exact_zero number hfits hzero) hd, ?_⟩
    have hnone : d.units = 0 := hunits
    rw [hzero, d.rational_eq, hnone]
    simp
  · obtain ⟨whole, fraction, hwhole, hwholene, hfraction, hcanonical, hrun⟩ := exact_canonical number hfits hzero
    have hlt := digitsValue_lt hfraction
    rcases hrun with ⟨hscale, hok⟩ | ⟨hlarge, e, herror⟩
    · by_cases hunits : digitsValue (whole ++ fraction) ≤ maxUnits
      · refine .inl ⟨hcanonical.representable_iff.mpr ⟨hscale, hunits⟩, ?_⟩
        obtain ⟨d, hd, hdunits, hdscale, hdnegative⟩ :=
          fromInvariantString_exact number.negative hwhole hwholene hfraction hscale hunits
        refine ⟨d, asDecimal_of_exact hok hd, ?_⟩
        have hpos : d.units ≠ 0 := by
          intro hnone
          have habs := hcanonical.abs
          rw [← hdunits, hnone] at habs
          exact hzero (by simpa using habs)
        rw [d.rational_eq, value_signed, hcanonical.abs, hdunits, hdscale, hdnegative]
        simp [hpos]
      · by_cases hhalf : 2 * digitsValue (whole ++ fraction) < (2 ^ 97 - 1) * 10 ^ fraction.length
        · have hrounded := hcanonical.rounded_iff.mpr ⟨hscale, Nat.lt_of_not_le hunits, hhalf⟩
          obtain ⟨d, hd, -⟩ := fromInvariantString_drops number.negative hwhole hwholene hfraction hscale
            (Nat.lt_of_not_le hunits) hhalf
          exact .inr (.inl ⟨hrounded, d, asDecimal_of_exact hok hd⟩)
        · obtain ⟨e, he⟩ := fromInvariantString_refuses number.negative hwhole hwholene hfraction hscale
            (Nat.le_of_not_lt hhalf)
          refine .inr (.inr ⟨fun h => hunits (hcanonical.representable_iff.mp h).2,
            fun h => hhalf (hcanonical.rounded_iff.mp h).2.2, e.text, ?_⟩)
          rw [asDecimal, Fallible.bind_ok hok, he]
          rfl
    · refine .inr (.inr ⟨fun h => ?_, fun h => ?_, e, ?_⟩)
      · obtain ⟨hscale, hunits⟩ := hcanonical.representable_iff.mp h
        rcases hlarge with hmore | hlarge
        · omega
        · have hpos : 1 ≤ 10 ^ fraction.length := Nat.pow_pos (by decide)
          have hten : 10 ^ 29 ≤ 10 ^ 29 * 10 ^ fraction.length := Nat.le_mul_of_pos_right _ hpos
          have hmax : maxUnits < 10 ^ 29 := by decide
          omega
      · obtain ⟨hscale, -, hhalf⟩ := hcanonical.rounded_iff.mp h
        rcases hlarge with hmore | hlarge
        · omega
        · have hle : (2 ^ 97 - 1) * 10 ^ fraction.length ≤ 2 * (10 ^ 29 * 10 ^ fraction.length) := by
            rw [← Nat.mul_assoc]
            exact Nat.mul_le_mul_right _ (by decide)
          omega
      · rw [asDecimal, herror]
        rfl

/-- A whole number has no places. -/
theorem Canonical.whole {v : ℚ} {units scale : Nat} (h : Canonical v units scale) {n : Int} (hn : v = n) :
    scale = 0 ∧ n.natAbs = units := by
  have habs : |v| = n.natAbs / 10 ^ 0 := by
    rw [hn, pow_zero, div_one, Nat.cast_natAbs, Int.cast_abs]
  obtain ⟨hle, hunits⟩ := h.scale_le habs
  obtain rfl : scale = 0 := by omega
  exact ⟨rfl, by simpa using hunits⟩

theorem jsonInteger_of_exact {text exact : Bytes} (h : exactJsonDecimal text = .ok exact) (n : Int) :
    jsonInteger text = .ok n ↔ fromChars exact = some n := by
  rw [jsonInteger, Fallible.bind_ok h]
  cases fromChars exact <;> simp

theorem fromChars_signed (negative : Bool) {whole : Bytes} (hdigits : Digits whole) (hne : whole ≠ []) (n : Int) :
    fromChars ((if negative then [Ch.minus] else []) ++ whole) = some n ↔
      Fits64 n ∧ n = (if negative then -1 else 1) * digitsValue whole := by
  cases negative with
  | false =>
    simp only [Bool.false_eq_true, if_false, List.nil_append, fromChars_digits hdigits hne, Int.one_mul]
    constructor
    · intro h
      split at h
      · cases h
        exact ⟨‹_›, rfl⟩
      · cases h
    · rintro ⟨hfits, rfl⟩
      rw [if_pos hfits]
  | true =>
    simp only [if_true, List.singleton_append, fromChars_minus hdigits hne, Int.neg_mul, Int.one_mul]
    constructor
    · intro h
      split at h
      · cases h
        exact ⟨‹_›, rfl⟩
      · cases h
    · rintro ⟨hfits, rfl⟩
      rw [if_pos hfits]

/-- What `JsonInteger` does: it gives the whole numbers of 64 bits, and refuses the others. -/
theorem jsonInteger_iff (hfits : Fits64 number.exponentValue) (n : Int) :
    jsonInteger number.text = .ok n ↔ Fits64 n ∧ number.value = n := by
  by_cases hzero : number.value = 0
  · rw [jsonInteger_of_exact (exact_zero number hfits hzero), hzero]
    have hread := fromChars_signed false (show Digits (ascii "0") by decide +kernel) (by decide) n
    have hvalue : digitsValue (ascii "0") = 0 := by decide
    rw [hvalue] at hread
    simp only [Bool.false_eq_true, if_false, List.nil_append, Nat.cast_zero, Int.mul_zero] at hread
    rw [hread, eq_comm (a := (0 : ℚ)), Int.cast_eq_zero]
  · obtain ⟨whole, fraction, hwhole, hwholene, hfraction, hcanonical, hrun⟩ := exact_canonical number hfits hzero
    rcases hrun with ⟨hscale, hok⟩ | ⟨hlarge, e, herror⟩
    · rw [jsonInteger_of_exact hok]
      by_cases hnil : fraction = []
      · subst hnil
        rw [pointed, if_pos rfl, List.append_nil, fromChars_signed _ hwhole hwholene]
        have hvalue : number.value = ((if number.negative then -1 else 1) * digitsValue whole : Int) := by
          have habs := hcanonical.abs
          rw [List.append_nil, List.length_nil, pow_zero, div_one] at habs
          rw [value_signed, habs]
          cases number.negative <;> simp
        rw [hvalue, Int.cast_inj, eq_comm (a := n)]
      · have hdot : fromChars ((if number.negative then [Ch.minus] else []) ++ pointed whole fraction) = none := by
          refine fromChars_none (c := Ch.dot) ?_ rfl (by decide)
          simp [pointed, hnil]
        rw [hdot]
        refine ⟨(by intro hnone; cases hnone), fun hfound => ?_⟩
        have hn := hfound.2
        exact absurd (List.length_eq_zero_iff.mp (hcanonical.whole hn).1) hnil
    · rw [jsonInteger, herror]
      refine ⟨(by intro hnone; cases hnone), fun hfound => ?_⟩
      obtain ⟨⟨hlow, hhigh⟩, hn⟩ := hfound
      obtain ⟨hlength, hunits⟩ := hcanonical.whole hn
      rw [hlength, pow_zero, Nat.mul_one, ← hunits] at hlarge
      omega

/-! ### What is read exactly -/

/-- What is read of a number is the number, and what is a number of the type is read. -/
structure Exact : Prop where
  decimal : ∀ d, asDecimal number.text = .ok d → d.rational = number.value
  bigInteger : ∀ n, asBigInteger number.text = .ok n ↔ Fits64 n ∧ number.value = n
  integer : ∀ n, asInteger number.text = .ok n ↔ (-2 ^ 31 ≤ n ∧ n < 2 ^ 31) ∧ number.value = n
  zero : number.value = 0 → ∃ d, asDecimal number.text = .ok d ∧ d.rational = 0

/-- With an exponent of 64 bits, the number is not one that is rounded; with another, it is neither
zero nor a whole number of 64 bits. -/
def Good : Prop :=
  if Fits64 number.exponentValue then ¬ Rounded number.value
  else number.value ≠ 0 ∧ ¬ ∃ n : Int, Fits64 n ∧ number.value = n

/-- A number that is read as a decimal. -/
def Answered : Prop := Fits64 number.exponentValue ∧ Representable number.value

end Number

section Exact
variable {number other : JsonNumber}

theorem asInteger_iff (n : Int) :
    asInteger number.text = .ok n ↔ (-2 ^ 31 ≤ n ∧ n < 2 ^ 31) ∧ jsonInteger number.text = .ok n := by
  rw [asInteger]
  cases jsonInteger number.text with
  | error e => simp [bind, Except.bind]
  | ok value =>
    simp only [Fallible.bind_ok rfl]
    split
    · rename_i hout
      refine ⟨nofun, fun ⟨hrange, heq⟩ => ?_⟩
      cases heq
      omega
    · rename_i hin
      constructor
      · intro heq
        cases heq
        exact ⟨by omega, rfl⟩
      · rintro ⟨-, heq⟩
        exact heq

theorem Good.exact (h : Good number) : Exact number := by
  unfold Good at h
  split at h
  · rename_i hfits
    have hinteger := jsonInteger_iff number hfits
    refine ⟨fun d hd => ?_, hinteger, fun n => ?_, fun hzero => ?_⟩
    · rcases asDecimal_spec number hfits with ⟨-, d', hd', hvalue⟩ | ⟨hrounded, -⟩ | ⟨-, -, e, he⟩
      · cases hd.symm.trans hd'
        exact hvalue
      · exact absurd hrounded h
      · cases hd.symm.trans he
    · rw [asInteger_iff, hinteger]
      unfold Fits64
      constructor
      · rintro ⟨hrange, -, hvalue⟩
        exact ⟨hrange, hvalue⟩
      · rintro ⟨hrange, hvalue⟩
        exact ⟨hrange, ⟨by omega, by omega⟩, hvalue⟩
    · rcases asDecimal_spec number hfits with ⟨-, d, hd, hvalue⟩ | ⟨hrounded, -⟩ | ⟨hnot, -⟩
      · exact ⟨d, hd, hvalue.trans hzero⟩
      · exact absurd hrounded h
      · exact absurd (hzero ▸ representable_zero) hnot
  · rename_i hfits
    have herror := exact_unfit number hfits
    have hinteger : ∀ n, ¬ jsonInteger number.text = .ok n := by
      intro n hn
      rw [jsonInteger, herror] at hn
      cases hn
    refine ⟨fun d hd => ?_, fun n => ⟨fun hn => absurd hn (hinteger n), fun hn => absurd ⟨n, hn⟩ h.2⟩, fun n => ?_,
      fun hzero => absurd hzero h.1⟩
    · rw [asDecimal, herror] at hd
      cases hd
    · rw [asInteger_iff]
      refine ⟨fun hn => absurd hn.2 (hinteger n), fun ⟨hrange, hvalue⟩ => absurd ⟨n, ?_, hvalue⟩ h.2⟩
      exact ⟨by omega, by omega⟩

theorem Exact.good (h : Exact number) : Good number := by
  unfold Good
  split
  · rename_i hfits
    intro hrounded
    rcases asDecimal_spec number hfits with ⟨hrepresentable, -⟩ | ⟨-, d, hd⟩ | ⟨-, hnot, -⟩
    · exact hrounded.2.2 hrepresentable
    · exact hrounded.2.2 (h.decimal d hd ▸ representable_rational d)
    · exact hnot hrounded
  · rename_i hfits
    have herror := exact_unfit number hfits
    constructor
    · intro hzero
      obtain ⟨d, hd, -⟩ := h.zero hzero
      rw [asDecimal, herror] at hd
      cases hd
    · rintro ⟨n, hn⟩
      have hread := (h.bigInteger n).mpr hn
      rw [asBigInteger, jsonInteger, herror] at hread
      cases hread

theorem Good.answered_iff (h : Good number) : (∃ d, asDecimal number.text = .ok d) ↔ Answered number := by
  unfold Good at h
  split at h
  · rename_i hfits
    rcases asDecimal_spec number hfits with ⟨hrepresentable, d, hd, -⟩ | ⟨hrounded, -⟩ | ⟨hnot, -, e, he⟩
    · exact ⟨fun _ => ⟨hfits, hrepresentable⟩, fun _ => ⟨d, hd⟩⟩
    · exact absurd hrounded h
    · refine ⟨fun ⟨d, hd⟩ => ?_, fun hanswered => absurd hanswered.2 hnot⟩
      cases hd.symm.trans he
  · rename_i hfits
    refine ⟨fun ⟨d, hd⟩ => ?_, fun hanswered => absurd hanswered.1 hfits⟩
    rw [asDecimal, exact_unfit number hfits] at hd
    cases hd

/-- A comparison that gives an answer compares two decimals. -/
theorem sameNumber_iff (b : Bool) : sameNumber number.text other.text = .ok b ↔
    ∃ d d', asDecimal number.text = .ok d ∧ asDecimal other.text = .ok d' ∧ b = decide (d.compare d' = .eq) := by
  rw [sameNumber]
  cases asDecimal number.text with
  | error e => simp [bind, Except.bind]
  | ok d =>
    cases asDecimal other.text with
    | error e => simp [bind, Except.bind]
    | ok d' =>
      simp only [Fallible.bind_ok rfl, pure, Except.pure, Except.ok.injEq, exists_and_left, exists_eq_left']
      exact eq_comm

/-- **Two number texts are exact or refused, and compare as the numbers they are, exactly where both
are good.** Two good numbers compare equal where they are the same number and are decimals. -/
theorem numbers_exact_iff (number other : JsonNumber) :
    ((Exact number ∧ Exact other ∧
        ∀ b, sameNumber number.text other.text = .ok b → (b = true ↔ number.value = other.value)) ↔
      Good number ∧ Good other) ∧
    (Good number → Good other → (sameNumber number.text other.text = .ok true ↔
      number.value = other.value ∧ Answered number ∧ Answered other)) := by
  have hcompare : Good number → Good other → ∀ d d', asDecimal number.text = .ok d → asDecimal other.text = .ok d' →
      (d.compare d' = .eq ↔ number.value = other.value) := by
    intro hgood hgood' d d' hd hd'
    rw [compare_iff, hgood.exact.decimal d hd, hgood'.exact.decimal d' hd']
  refine ⟨⟨fun ⟨h, h', _⟩ => ⟨h.good, h'.good⟩, fun ⟨h, h'⟩ => ⟨h.exact, h'.exact, fun b hb => ?_⟩⟩, fun h h' => ?_⟩
  · obtain ⟨d, d', hd, hd', rfl⟩ := (sameNumber_iff b).mp hb
    rw [decide_eq_true_eq]
    exact hcompare h h' d d' hd hd'
  · rw [sameNumber_iff]
    constructor
    · rintro ⟨d, d', hd, hd', heq⟩
      refine ⟨?_, h.answered_iff.mp ⟨d, hd⟩, h'.answered_iff.mp ⟨d', hd'⟩⟩
      exact (hcompare h h' d d' hd hd').mp (of_decide_eq_true heq.symm)
    · rintro ⟨hvalue, hanswered, hanswered'⟩
      obtain ⟨d, hd⟩ := h.answered_iff.mpr hanswered
      obtain ⟨d', hd'⟩ := h'.answered_iff.mpr hanswered'
      refine ⟨d, d', hd, hd', ?_⟩
      rw [eq_comm, decide_eq_true_eq]
      exact (hcompare h h' d d' hd hd').mpr hvalue

/-- 8.0000000000000000000000000001 -/
def eight : JsonNumber where
  negative := false
  whole := ascii "8"
  fraction := ascii "0000000000000000000000000001"
  exponent := none
  some_digit := by decide
  whole_digits := by decide +kernel
  no_leading_zero := by decide
  fraction_digits := by decide +kernel

/-- It is read as eight. -/
theorem eight_rounded : ¬ ∀ number other : JsonNumber, Exact number ∧ Exact other ∧
    ∀ b, sameNumber number.text other.text = .ok b → (b = true ↔ number.value = other.value) := by
  intro h
  have hread : (asDecimal eight.text).toOption.map (fun d => (d.units, d.scale)) = some (8 * 10 ^ 27, 27) := by
    decide +kernel
  have hvalue : |eight.value| = 8 + 1 / 10 ^ 28 := by
    have hdigits : digitsValue (eight.whole ++ eight.fraction) = 8 * 10 ^ 28 + 1 := by decide +kernel
    have hscale : eight.scale = 28 := by decide +kernel
    rw [value_abs, hdigits, hscale]
    norm_num
  cases hd : asDecimal eight.text with
  | error e =>
    rw [hd] at hread
    cases hread
  | ok d =>
    rw [hd] at hread
    obtain ⟨hunits, hscale⟩ := Prod.mk.inj (Option.some.inj hread)
    have habs := d.abs_rational
    rw [(h eight eight).1.decimal d hd, hvalue, hunits, hscale] at habs
    norm_num at habs

end Exact

end Json
end Agiru
