import Agiru.Json.Number
import Agiru.Values.Parsed

/-! The rewriting of a number text without its exponent.

`exactJsonDecimal_spec`: the digits that come out name the number, and their fraction does not end in
a zero; it is refused for more than 28 places, or for more than 29 digits before them. -/
namespace Agiru.Json
open Bytes

variable {c : UInt8}

/-- A whole number of 64 bits. -/
def Fits64 (n : Int) : Prop := -2 ^ 63 ≤ n ∧ n < 2 ^ 63

instance (n : Int) : Decidable (Fits64 n) := inferInstanceAs (Decidable (_ ∧ _))

/-! ### The exponent -/

def JsonNumber.exponentValue (number : JsonNumber) : Int := (number.exponent.map Exponent.value).getD 0

theorem head_ne_of_digits {text : Bytes} (h : Digits text) (hc : isDigit c = false) : text.head? ≠ some c := by
  intro hhead
  rw [h c (List.mem_of_mem_head? hhead)] at hc
  cases hc

theorem fromChars_digits {text : Bytes} (h : Digits text) (hne : text ≠ []) :
    fromChars text = if Fits64 (digitsValue text) then some (digitsValue text : Int) else none := by
  have hminus : text.head? ≠ some Ch.minus := head_ne_of_digits h rfl
  simp [fromChars, hminus, hne, h, Fits64]

theorem fromChars_minus {text : Bytes} (h : Digits text) (hne : text ≠ []) :
    fromChars (Ch.minus :: text) = if Fits64 (-digitsValue text) then some (-digitsValue text : Int) else none := by
  simp [fromChars, hne, h, Fits64]

theorem fromChars_none {text : Bytes} (hmem : c ∈ text) (hc : isDigit c = false) (hminus : c ≠ Ch.minus) :
    fromChars text = none := by
  have hmem' : c ∈ if text.head? = some Ch.minus then text.tail else text := by
    split
    · rename_i hhead
      obtain ⟨rest, rfl⟩ := List.head?_eq_some_iff.mp hhead
      rcases List.mem_cons.mp hmem with heq | hmem
      · exact absurd heq hminus
      · exact hmem
    · exact hmem
  have hnot : ¬ Digits (if text.head? = some Ch.minus then text.tail else text) := by
    intro h
    rw [h c hmem'] at hc
    cases hc
  simp only [fromChars]
  rw [if_neg fun h => hnot (by simpa using h.2.1)]

theorem fromChars_exponent (exponent : Exponent) :
    fromChars (if exponent.signed.head? = some Ch.plus then exponent.signed.tail else exponent.signed) =
    if Fits64 exponent.value then some exponent.value else none := by
  have hdigits := fromChars_digits exponent.are_digits exponent.some_digit
  have hplus : exponent.digits.head? ≠ some Ch.plus := head_ne_of_digits exponent.are_digits rfl
  cases hsign : exponent.sign with
  | none => simpa [hplus, Exponent.value, Exponent.signed, hsign] using hdigits
  | some minus =>
    cases minus with
    | true =>
      have hne : Ch.minus ≠ Ch.plus := by decide
      simpa [hne, Exponent.value, Exponent.signed, hsign] using
        fromChars_minus exponent.are_digits exponent.some_digit
    | false => simpa [Exponent.value, Exponent.signed, hsign] using hdigits

section Mantissa
variable (number : JsonNumber)

/-- The characters of a mantissa. -/
theorem mem_mantissa (h : c ∈ number.mantissa) : isDigit c = true ∨ c = Ch.dot := by
  rcases List.mem_append.mp h with h | h
  · exact .inl (number.whole_digits c h)
  · split at h
    · cases h
    · rcases List.mem_cons.mp h with h | h
      · exact .inr h
      · exact .inl (number.fraction_digits c h)

theorem not_exponent_of_mem (h : c ∈ number.mantissa) : (c ≠ 101 && c ≠ 69) = true := by
  rcases mem_mantissa number h with hdigit | rfl
  · simp only [isDigit, Bool.and_eq_true, decide_eq_true_eq, UInt8.le_iff_toNat_le] at hdigit
    have h57 : (57 : UInt8).toNat = 57 := rfl
    simp only [Bool.and_eq_true, decide_eq_true_eq]
    constructor
    · rintro rfl
      exact absurd hdigit.2 (by decide)
    · rintro rfl
      exact absurd hdigit.2 (by decide)
  · decide

theorem span_append {p : UInt8 → Bool} {a b : Bytes} (ha : ∀ c ∈ a, p c = true) (hb : ∀ c, b.head? = some c → p c = false) :
    (a ++ b).span p = (a, b) := by
  rw [List.span_eq_takeWhile_dropWhile]
  have htake : b.takeWhile p = [] ∧ b.dropWhile p = b := by
    cases b with
    | nil => exact ⟨rfl, rfl⟩
    | cons c b =>
      have hc := hb c rfl
      simp [hc]
  rw [List.takeWhile_append_of_pos ha, List.dropWhile_append_of_pos ha, htake.1, htake.2, List.append_nil]

theorem exponent_read :
    jsonNumberExponent (number.mantissa ++ (number.exponent.map Exponent.text).getD []) =
      if Fits64 number.exponentValue then .ok (number.mantissa, number.exponentValue)
      else .error (ascii "JSON number exponent is out of range") := by
  unfold jsonNumberExponent
  cases hexponent : number.exponent with
  | none =>
    have hspan := span_append (b := []) (fun c hc => not_exponent_of_mem number hc) nofun
    rw [List.append_nil] at hspan
    simp only [Option.map_none, Option.getD_none, List.append_nil, hspan, JsonNumber.exponentValue, hexponent]
    rw [if_pos (by decide)]
  | some exponent =>
    have hspan := span_append (b := exponent.text) (fun c hc => not_exponent_of_mem number hc) (by
      intro c hc
      obtain rfl := Option.some.inj hc
      cases exponent.upper <;> decide)
    simp only [Option.map_some, Option.getD_some, hspan, JsonNumber.exponentValue, hexponent]
    simp only [Exponent.text, fromChars_exponent]
    by_cases hfits : Fits64 exponent.value
    · rw [if_pos hfits, if_pos hfits]
    · rw [if_neg hfits, if_neg hfits]

theorem withoutPoint_digits {text : Bytes} (h : Digits text) (seen : Bool) : withoutPoint seen text = some text := by
  induction text with
  | nil => rfl
  | cons c text ih =>
    have hc := h c List.mem_cons_self
    rw [withoutPoint, if_neg (by simp [dot_ne_digit hc]), if_pos hc, ih h.tail]
    rfl

theorem withoutPoint_append {text rest : Bytes} (h : Digits text) :
    withoutPoint false (text ++ rest) = (withoutPoint false rest).map (text ++ ·) := by
  induction text with
  | nil => simp
  | cons c text ih =>
    have hc := h c List.mem_cons_self
    rw [List.cons_append, withoutPoint, if_neg (by simp [dot_ne_digit hc]), if_pos hc, ih h.tail, Option.map_map]
    rfl

theorem coefficient_read : jsonCoefficient number.mantissa = .ok (number.whole ++ number.fraction) := by
  have hpoint : withoutPoint false number.mantissa = some (number.whole ++ number.fraction) := by
    rw [JsonNumber.mantissa, withoutPoint_append number.whole_digits]
    by_cases hnil : number.fraction = []
    · simp [hnil, withoutPoint]
    · rw [if_neg hnil, withoutPoint, if_pos (by simp), withoutPoint_digits number.fraction_digits]
      rfl
  unfold jsonCoefficient
  rw [hpoint]
  obtain ⟨c, rest, hwhole⟩ := List.exists_cons_of_ne_nil number.some_digit
  simp [hwhole]

theorem places_read : places number.mantissa = number.fraction.length := by
  have hwhole : number.whole.findIdx? (fun c => decide (c = Ch.dot)) = none := by
    simp only [List.findIdx?_eq_none_iff, decide_eq_false_iff_not]
    exact fun c hc => dot_ne_digit (number.whole_digits c hc)
  rw [places, JsonNumber.mantissa, List.findIdx?_append, hwhole]
  by_cases hnil : number.fraction = []
  · simp [hnil]
  · simp [hnil, List.findIdx?_cons]

theorem mantissa_length :
    number.mantissa.length =
      number.whole.length + (if number.fraction = [] then 0 else number.fraction.length + 1) := by
  rw [JsonNumber.mantissa, List.length_append]
  by_cases hnil : number.fraction = [] <;> simp [hnil]

theorem text_head : (number.text.head? = some Ch.minus) ↔ number.negative = true := by
  obtain ⟨c, rest, hwhole⟩ := List.exists_cons_of_ne_nil number.some_digit
  have hc : c ≠ Ch.minus := by
    rintro rfl
    have := number.whole_digits Ch.minus (by rw [hwhole]; exact List.mem_cons_self)
    cases this
  cases hnegative : number.negative <;> simp [JsonNumber.text, JsonNumber.mantissa, hnegative, hwhole, hc]

theorem text_unsigned :
    (if number.text.head? = some Ch.minus ∨ number.text.head? = some Ch.plus then number.text.tail else number.text) =
      number.mantissa ++ (number.exponent.map Exponent.text).getD [] := by
  obtain ⟨c, rest, hwhole⟩ := List.exists_cons_of_ne_nil number.some_digit
  have hdigit := number.whole_digits c (by rw [hwhole]; exact List.mem_cons_self)
  have hminus : c ≠ Ch.minus := by
    rintro rfl
    cases hdigit
  have hplus : c ≠ Ch.plus := by
    rintro rfl
    cases hdigit
  cases hnegative : number.negative <;>
    simp [JsonNumber.text, JsonNumber.mantissa, hnegative, hwhole, hminus, hplus]

end Mantissa

/-! ### The zeros that end the fraction -/

theorem dropFractionZeros_spec (digits : Bytes) (scale : Int) : ∃ zeros : Nat,
    digits = List.replicate zeros Ch.zero ++ (dropFractionZeros digits scale).1 ∧
      scale = (dropFractionZeros digits scale).2 + zeros ∧
      (zeros ≠ 0 → 0 ≤ (dropFractionZeros digits scale).2) ∧
      ((dropFractionZeros digits scale).2 ≤ 0 ∨
        (dropFractionZeros digits scale).1.head? ≠ some Ch.zero) := by
  induction digits generalizing scale with
  | nil => exact ⟨0, rfl, by simp [dropFractionZeros], by simp, .inr (by simp [dropFractionZeros])⟩
  | cons c digits ih =>
    rw [dropFractionZeros]
    split
    · rename_i h
      obtain ⟨zeros, hdigits, hscale, hzeros, hlast⟩ := ih (scale - 1)
      refine ⟨zeros + 1, ?_, ?_, fun _ => ?_, hlast⟩
      · rw [List.replicate_succ, List.cons_append, ← hdigits, h.2]
      · push_cast
        omega
      · by_cases hzero : zeros = 0
        · subst hzero
          omega
        · exact hzeros hzero
    · rename_i h
      refine ⟨0, rfl, by simp, by simp, ?_⟩
      by_cases hscale : 0 < scale
      · refine .inr ?_
        simp only [List.head?_cons, ne_eq, Option.some.injEq]
        exact fun hc => h ⟨hscale, hc⟩
      · exact .inl (by omega)

/-! ### The point -/

/-- What is written of a coefficient and a scale. -/
theorem placed_spec {coefficient : Bytes} (hdigits : Digits coefficient) (hne : coefficient ≠ []) (scale : Int) :
    ∃ whole fraction, placed coefficient scale = pointed whole fraction ∧ Digits whole ∧ whole ≠ [] ∧
      Digits fraction ∧ fraction.length = scale.toNat ∧
      digitsValue (whole ++ fraction) = digitsValue coefficient * 10 ^ (-scale).toNat := by
  by_cases hscale : 0 < scale
  · have hneg : (-scale).toNat = 0 := by omega
    obtain ⟨places, rfl⟩ : ∃ places : Nat, scale = places := ⟨scale.toNat, by omega⟩
    have hplaces : 0 < places := by omega
    set padded := List.replicate (places + 1 - coefficient.length) Ch.zero ++ coefficient with hpadded
    have hlength : places + 1 ≤ padded.length := by
      simp only [hpadded, List.length_append, List.length_replicate]
      omega
    have hall : Digits padded := (digits_zeros _).append hdigits
    refine ⟨padded.take (padded.length - places), padded.drop (padded.length - places), ?_, ?_, ?_, ?_, ?_, ?_⟩
    · have hdrop : padded.drop (padded.length - places) ≠ [] := by
        simp only [ne_eq, List.drop_eq_nil_iff]
        omega
      simp only [placed, hneg, List.replicate_zero, List.append_nil, Int.toNat_natCast, hscale, if_true, pointed, hdrop,
        if_false, List.append_assoc, List.singleton_append]
      rfl
    · exact hall.sublist (List.take_sublist ..)
    · intro hnil
      have hzero := congrArg List.length hnil
      simp only [List.length_take, List.length_nil] at hzero
      omega
    · exact hall.sublist (List.drop_sublist ..)
    · simp only [List.length_drop, Int.toNat_natCast]
      omega
    · rw [List.take_append_drop, hpadded, digitsValue_zeros_append, hneg, pow_zero, Nat.mul_one]
  · refine ⟨coefficient ++ List.replicate (-scale).toNat Ch.zero, [], ?_, hdigits.append (digits_zeros _), ?_,
      (by intro c hc; cases hc), ?_, ?_⟩
    · simp [placed, hscale, pointed]
    · simp [hne]
    · simp only [List.length_nil]
      omega
    · rw [List.append_nil, digitsValue_append_zeros]

/-! ### The text -/

section Text
variable {number : JsonNumber}

/-- The digits of a number, without the zeros before them. -/
theorem nonzero_digits (hne : digitsValue (number.whole ++ number.fraction) ≠ 0) :
    ∃ c rest, (number.whole ++ number.fraction).dropWhile (· = Ch.zero) = c :: rest ∧ c ≠ Ch.zero ∧
      Digits (c :: rest) ∧ digitsValue (c :: rest) = digitsValue (number.whole ++ number.fraction) ∧
      rest.length < number.mantissa.length := by
  have hdigits := number.whole_digits.append number.fraction_digits
  cases hdrop : (number.whole ++ number.fraction).dropWhile (· = Ch.zero) with
  | nil => exact absurd ((digitsValue_eq_zero hdigits).mpr hdrop) hne
  | cons c rest =>
    refine ⟨c, rest, rfl, ?_, hdrop ▸ hdigits.sublist (List.dropWhile_sublist _), ?_, ?_⟩
    · have hhead := List.head_dropWhile_not (p := fun c => decide (c = Ch.zero))
        (l := number.whole ++ number.fraction) (by rw [hdrop]; simp)
      simpa [hdrop] using hhead
    · rw [← hdrop, digitsValue_dropZeros]
    · have hle := (List.dropWhile_sublist (p := fun c => decide (c = Ch.zero))
        (l := number.whole ++ number.fraction)).length_le
      rw [hdrop, List.length_cons, List.length_append] at hle
      rw [mantissa_length]
      split
      · rename_i hnil
        rw [hnil, List.length_nil] at hle
        omega
      · omega

/-- The digits of a number without the zeros that end its fraction. -/
structure Trimmed (digits : Bytes) (places : Int) (trimmed : Bytes) (scale : Int) : Prop where
  are_digits : Digits trimmed
  ne_nil : trimmed ≠ []
  large : 10 ^ (trimmed.length - 1) ≤ digitsValue trimmed
  last : 0 < scale → digitsValue trimmed % 10 ≠ 0
  value : ∃ zeros : Nat, digitsValue digits = digitsValue trimmed * 10 ^ zeros ∧ places = scale + zeros ∧
    digits.length = trimmed.length + zeros ∧ (zeros ≠ 0 → 0 ≤ scale)

theorem trimmed_of_drop {rest : Bytes} (hc : c ≠ Ch.zero) (hdigits : Digits (c :: rest)) (places : Int) :
    Trimmed (c :: rest) places (dropFractionZeros (c :: rest).reverse places).1.reverse
      (dropFractionZeros (c :: rest).reverse places).2 := by
  obtain ⟨zeros, hreverse, hscale, hzeros, hlast⟩ := dropFractionZeros_spec (c :: rest).reverse places
  generalize dropFractionZeros (c :: rest).reverse places = dropped at *
  obtain ⟨left, scale⟩ := dropped
  have happend : c :: rest = left.reverse ++ List.replicate zeros Ch.zero := by
    have := congrArg List.reverse hreverse
    simpa using this
  have hleft : Digits left.reverse := by
    rw [happend] at hdigits
    exact hdigits.of_append_left
  have hcons : ∃ tail, left.reverse = c :: tail := by
    cases hl : left.reverse with
    | nil =>
      rw [hl, List.nil_append] at happend
      have hmem : c ∈ List.replicate zeros Ch.zero := by
        rw [← happend]
        exact List.mem_cons_self
      exact absurd (List.eq_of_mem_replicate hmem) hc
    | cons d tail =>
      rw [hl, List.cons_append] at happend
      obtain ⟨rfl, -⟩ := List.cons.inj happend
      exact ⟨tail, rfl⟩
  obtain ⟨tail, htail⟩ := hcons
  refine ⟨hleft, by simp [htail], ?_, fun hpositive => ?_, zeros, ?_, hscale, ?_, hzeros⟩
  · rw [htail] at hleft ⊢
    exact pow_le_digitsValue hleft hc
  · rcases hlast with hle | hlast
    · exact absurd hle (by simpa using hpositive)
    · obtain ⟨d, before, rfl⟩ : ∃ d before, left = d :: before := by
        cases left with
        | nil => simp at htail
        | cons d before => exact ⟨d, before, rfl⟩
      have hd : isDigit d = true := hleft d (by simp)
      have hne : d.toNat - 48 ≠ 0 := fun hzero => hlast (by rw [digit_eq_zero hd hzero]; rfl)
      have hten := isDigit_value hd
      show digitsValue (d :: before).reverse % 10 ≠ 0
      rw [List.reverse_cons, digitsValue_concat]
      omega
  · rw [happend, digitsValue_append_zeros]
  · rw [happend, List.length_append, List.length_replicate]

theorem zpow_neg_scale (scale : Int) : (10 : ℚ) ^ (-scale) = 10 ^ (-scale).toNat / 10 ^ scale.toNat := by
  rcases Int.le_total 0 scale with hpositive | hnegative
  · obtain ⟨places, rfl⟩ := Int.eq_ofNat_of_zero_le hpositive
    have hzero : (-(places : Int)).toNat = 0 := by omega
    rw [hzero, pow_zero, Int.toNat_natCast, zpow_neg, zpow_natCast, one_div]
  · obtain ⟨zeros, hzeros⟩ := Int.eq_ofNat_of_zero_le (by omega : 0 ≤ -scale)
    have hzero : scale.toNat = 0 := by omega
    rw [hzeros, hzero, pow_zero, Int.toNat_natCast, zpow_natCast, div_one]

/-- A number with an exponent of 64 bits: what is written of it, and when it is refused. -/
theorem exactJsonDecimal_spec (hfits : Fits64 number.exponentValue)
    (hne : digitsValue (number.whole ++ number.fraction) ≠ 0) :
    ∃ whole fraction, Digits whole ∧ whole ≠ [] ∧ Digits fraction ∧
      (fraction ≠ [] → digitsValue (whole ++ fraction) % 10 ≠ 0) ∧
      (digitsValue (number.whole ++ number.fraction) : ℚ) * 10 ^ (-number.scale) =
        digitsValue (whole ++ fraction) / 10 ^ fraction.length ∧
      (fraction.length ≤ 28 ∧ exactJsonDecimal number.text =
          .ok ((if number.negative then [Ch.minus] else []) ++ pointed whole fraction) ∨
        (28 < fraction.length ∨ 10 ^ 29 * 10 ^ fraction.length ≤ digitsValue (whole ++ fraction)) ∧
          exactJsonDecimal number.text =
            .error (ascii "JSON number cannot be represented exactly as Decimal")) := by
  obtain ⟨c, rest, hdrop, hc, hdigits, hvalue, hlength⟩ := nonzero_digits hne
  have hscale : number.scale = number.fraction.length - number.exponentValue := rfl
  have hscales : maximumDecimalScale = 28 ∧ maximumDecimalDigits = 29 := ⟨rfl, rfl⟩
  have htrimmed := trimmed_of_drop hc hdigits number.scale
  generalize hdropped : dropFractionZeros (c :: rest).reverse number.scale = dropped at htrimmed
  obtain ⟨left, scale⟩ := dropped
  dsimp only at htrimmed
  obtain ⟨zeros, hzeros, hplaces, hcount, hnonneg⟩ := htrimmed.value
  obtain ⟨whole, fraction, hplaced, hwhole, hwholene, hfraction, hfractionlength, hsame⟩ :=
    placed_spec htrimmed.are_digits htrimmed.ne_nil scale
  have hnil : ∀ p : Prop, fraction ≠ [] → (0 < scale → p) → p := by
    intro p hne h
    have hpos := List.length_pos_of_ne_nil hne
    exact h (by omega)
  refine ⟨whole, fraction, hwhole, hwholene, hfraction, fun hne => ?_, ?_, ?_⟩
  · refine hnil _ hne fun hpositive => ?_
    have hzero : (-scale).toNat = 0 := by omega
    rw [hsame, hzero, pow_zero, Nat.mul_one]
    exact htrimmed.last hpositive
  · rw [← hvalue, hzeros, hplaces, hsame, hfractionlength]
    have hsplit : (10 : ℚ) ^ (-(scale + zeros)) = 10 ^ (-scale) * ((10 : ℚ) ^ zeros)⁻¹ := by
      rw [neg_add, zpow_add₀ (by norm_num), zpow_neg, zpow_neg, zpow_natCast]
    have hten : (10 : ℚ) ^ zeros ≠ 0 := pow_ne_zero _ (by norm_num)
    rw [hsplit, zpow_neg_scale]
    push_cast
    field_simp
  · -- where the first check refuses, the second would
    have hcheck : (number.exponentValue < -number.mantissa.length - maximumDecimalScale ∨
        number.mantissa.length + maximumDecimalDigits < number.exponentValue) →
        maximumDecimalScale < scale ∨ maximumDecimalDigits < left.reverse.length - scale := by
      have hfractionle : number.fraction.length ≤ number.mantissa.length := by
        rw [mantissa_length]
        split
        · rename_i hfractionnil
          simp [hfractionnil]
        · omega
      have hpos := List.length_pos_of_ne_nil htrimmed.ne_nil
      rw [List.length_cons] at hcount
      intro h
      by_cases hz : zeros = 0
      · omega
      · have := hnonneg hz
        omega
    have hlarge : maximumDecimalScale < scale ∨ maximumDecimalDigits < left.reverse.length - scale →
        28 < fraction.length ∨ 10 ^ 29 * 10 ^ fraction.length ≤ digitsValue (whole ++ fraction) := by
      rintro (h | h)
      · exact .inl (by omega)
      · refine .inr ?_
        rw [hsame, hfractionlength]
        calc 10 ^ 29 * 10 ^ scale.toNat = 10 ^ (29 + scale.toNat) := (Nat.pow_add ..).symm
          _ ≤ 10 ^ (left.reverse.length - 1 + (-scale).toNat) := Nat.pow_le_pow_right (by decide) (by omega)
          _ = 10 ^ (left.reverse.length - 1) * 10 ^ (-scale).toNat := Nat.pow_add ..
          _ ≤ digitsValue left.reverse * 10 ^ (-scale).toNat := Nat.mul_le_mul_right _ htrimmed.large
    have hrun : exactJsonDecimal number.text =
        if (number.exponentValue < -number.mantissa.length - maximumDecimalScale ∨
          number.mantissa.length + maximumDecimalDigits < number.exponentValue) ∨
          (maximumDecimalScale < scale ∨ maximumDecimalDigits < left.reverse.length - scale) then
            .error (ascii "JSON number cannot be represented exactly as Decimal")
        else .ok ((if number.negative then [Ch.minus] else []) ++ pointed whole fraction) := by
      have hcoefficient : c :: rest ≠ [] := List.cons_ne_nil c rest
      unfold exactJsonDecimal
      simp only [text_unsigned, exponent_read, if_pos hfits, Fallible.bind_ok rfl, coefficient_read]
      rw [hdrop, if_neg hcoefficient, places_read, ← hscale, hdropped]
      dsimp only
      rw [hplaced]
      have hsign : (if number.text.head? = some Ch.minus then [Ch.minus] else []) =
          if number.negative then [Ch.minus] else [] := by
        simp only [text_head]
      rw [hsign]
      split
      · rw [if_pos (.inl ‹_›)]
      · rename_i hpassed
        split
        · rw [if_pos (.inr ‹_›)]
        · rename_i hpassed'
          rw [if_neg (not_or.mpr ⟨hpassed, hpassed'⟩)]
          rfl
    rw [hrun]
    by_cases hrefused : maximumDecimalScale < scale ∨ maximumDecimalDigits < left.reverse.length - scale
    · refine .inr ⟨hlarge hrefused, ?_⟩
      rw [if_pos (.inr hrefused)]
    · refine .inl ⟨by omega, ?_⟩
      rw [if_neg (not_or.mpr ⟨fun h => hrefused (hcheck h), hrefused⟩)]

end Text

end Agiru.Json
