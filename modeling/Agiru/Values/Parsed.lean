import Agiru.Library.Digits
import Agiru.Library.Procedure
import Agiru.Values.Decimal

/-! What `FromInvariantString` reads of digits and a point.

Digits that fit the mantissa are read as they are. Where they do not, the places that do not fit are
dropped and the rest is rounded, without a word; only where nothing is left to drop is it refused. -/
namespace Agiru
open Bytes

variable {u : Nat} {tail : RoundingTail}
variable {digit scale : Nat}

/-- Digits with a point before the last of them. -/
def pointed (whole fraction : Bytes) : Bytes :=
  whole ++ (if fraction = [] then [] else Ch.dot :: fraction)

theorem dot_ne_digit {c : UInt8} (h : isDigit c = true) : c ≠ Ch.dot := by
  rintro rfl
  cases h

/-! ### The digits before the point -/

theorem append_whole (h : u * 10 + digit ≤ maxUnits) :
    ParsedMagnitude.append {units := u} digit false = .ok {units := u * 10 + digit} := by
  have hfits : ¬ (maxUnits - digit) / 10 < u := by omega
  simp [ParsedMagnitude.append, hfits]

theorem append_whole_overflow (hdigit : digit < 10) (h : maxUnits < u * 10 + digit) :
    ParsedMagnitude.append {units := u} digit false = .error .parsing := by
  have hover : (maxUnits - digit) / 10 < u := by
    have : 10 ≤ maxUnits := by decide
    omega
  simp [ParsedMagnitude.append, hover]

theorem readMagnitude_digit {seenDigit seenPoint : Bool} {m : ParsedMagnitude} {c : UInt8} {rest : Bytes}
    (hc : isDigit c = true) : readMagnitude seenDigit seenPoint m (c :: rest) =
      match m.append (c.toNat - 48) seenPoint with
      | .error e => .error e
      | .ok next => readMagnitude true seenPoint next rest := by
  rw [readMagnitude]
  exact (if_neg (dot_ne_digit hc)).trans (if_neg (by simp [hc]))

theorem read_whole (seen : Bool) {whole : Bytes} (hdigits : Digits whole) (hne : whole ≠ []) (rest : Bytes)
    (h : u * 10 ^ whole.length + digitsValue whole ≤ maxUnits) :
    readMagnitude seen false {units := u} (whole ++ rest) =
      readMagnitude true false {units := u * 10 ^ whole.length + digitsValue whole} rest := by
  induction whole generalizing u seen with
  | nil => exact absurd rfl hne
  | cons c whole ih =>
    have hc := hdigits c List.mem_cons_self
    have hsum : u * 10 ^ (c :: whole).length + digitsValue (c :: whole) =
        (u * 10 + (c.toNat - 48)) * 10 ^ whole.length + digitsValue whole := by
      rw [digitsValue_cons, List.length_cons]
      ring
    rw [hsum] at h ⊢
    have hstep : u * 10 + (c.toNat - 48) ≤ maxUnits :=
      Nat.le_trans (Nat.le_mul_of_pos_right _ (Nat.pow_pos (by decide))) (Nat.le_trans (Nat.le_add_right _ _) h)
    rw [List.cons_append, readMagnitude_digit hc, append_whole hstep]
    cases whole with
    | nil => simp
    | cons d whole => exact ih true hdigits.tail (by simp) h

theorem read_whole_overflow (seen : Bool) {whole : Bytes} (hdigits : Digits whole) (hu : u ≤ maxUnits)
    (rest : Bytes) (h : maxUnits < u * 10 ^ whole.length + digitsValue whole) :
    readMagnitude seen false {units := u} (whole ++ rest) = .error .parsing := by
  induction whole generalizing u seen with
  | nil => exact absurd hu (Nat.not_le_of_gt (by simpa using h))
  | cons c whole ih =>
    have hc := hdigits c List.mem_cons_self
    rw [List.cons_append, readMagnitude_digit hc]
    by_cases hstep : u * 10 + (c.toNat - 48) ≤ maxUnits
    · rw [append_whole hstep]
      refine ih true hdigits.tail hstep ?_
      rw [digitsValue_cons, List.length_cons] at h
      calc maxUnits < u * 10 ^ (whole.length + 1) + ((c.toNat - 48) * 10 ^ whole.length + digitsValue whole) := h
        _ = (u * 10 + (c.toNat - 48)) * 10 ^ whole.length + digitsValue whole := by ring
    · rw [append_whole_overflow (isDigit_value hc) (Nat.lt_of_not_le hstep)]

/-! ### The digits after it -/

theorem append_fraction {k : Nat} (hk : k < maxScale) (h : u * 10 + digit ≤ maxUnits) :
    ParsedMagnitude.append {units := u, scale := k} digit true =
        .ok {units := u * 10 + digit, scale := k + 1} := by
  have hfits : ¬ (maxUnits - digit) / 10 < u := by omega
  simp [ParsedMagnitude.append, hfits, Nat.ne_of_lt hk]

theorem append_fraction_drops {k : Nat} (hdigit : digit < 10) (h : maxUnits < u * 10 + digit) :
    ParsedMagnitude.append {units := u, scale := k} digit true =
      .ok {units := u, scale := k, dropping := true, tail := {digit}} := by
  have hover : (maxUnits - digit) / 10 < u := by
    have : 10 ≤ maxUnits := by decide
    omega
  simp [ParsedMagnitude.append, hover, RoundingTail.prepend]

theorem read_fraction {fraction : Bytes} (hdigits : Digits fraction) {k : Nat} (hk : k + fraction.length ≤ maxScale)
    (h : u * 10 ^ fraction.length + digitsValue fraction ≤ maxUnits) :
    readMagnitude true true {units := u, scale := k} fraction =
      .ok {units := u * 10 ^ fraction.length + digitsValue fraction, scale := k + fraction.length} := by
  induction fraction generalizing u k with
  | nil => simp [readMagnitude]
  | cons c fraction ih =>
    have hc := hdigits c List.mem_cons_self
    have hsum : u * 10 ^ (c :: fraction).length + digitsValue (c :: fraction) =
        (u * 10 + (c.toNat - 48)) * 10 ^ fraction.length + digitsValue fraction := by
      rw [digitsValue_cons, List.length_cons]
      ring
    rw [hsum] at h ⊢
    rw [List.length_cons] at hk ⊢
    have hstep : u * 10 + (c.toNat - 48) ≤ maxUnits :=
      Nat.le_trans (Nat.le_mul_of_pos_right _ (Nat.pow_pos (by decide))) (Nat.le_trans (Nat.le_add_right _ _) h)
    rw [readMagnitude_digit hc, append_fraction (by omega) hstep]
    have hrest := ih hdigits.tail (u := u * 10 + (c.toNat - 48)) (k := k + 1) (by omega) h
    rw [show k + (fraction.length + 1) = k + 1 + fraction.length by omega]
    exact hrest

/-- Once a digit was dropped all are, and the first of them stays in the tail. -/
theorem read_dropping {fraction : Bytes} (hdigits : Digits fraction) {m : ParsedMagnitude}
    (hm : m.dropping = true) :
    ∃ sticky, readMagnitude true true m fraction = .ok {m with tail := ⟨m.tail.digit, sticky⟩} := by
  induction fraction generalizing m with
  | nil => exact ⟨m.tail.sticky, rfl⟩
  | cons c fraction ih =>
    have hc := hdigits c List.mem_cons_self
    rw [readMagnitude_digit hc]
    have happend : m.append (c.toNat - 48) true = .ok {m with tail := m.tail.append (c.toNat - 48)} := by
      simp [ParsedMagnitude.append, hm]
    rw [happend]
    exact ih hdigits.tail (m := {m with tail := m.tail.append (c.toNat - 48)}) hm

/-- Where the digits do not fit, so many places are read as fit, and the next digit is the tail's. -/
theorem read_fraction_drops {fraction : Bytes} (hdigits : Digits fraction) {k : Nat} (hu : u ≤ maxUnits)
    (hk : k + fraction.length ≤ maxScale) (h : maxUnits < u * 10 ^ fraction.length + digitsValue fraction) :
    ∃ places units digit sticky, places < fraction.length ∧ units ≤ maxUnits ∧ digit < 10 ∧
      maxUnits < units * 10 + digit ∧
      (places = 0 → units = u ∧ fraction.head?.map (fun c => c.toNat - 48) = some digit) ∧
      (places ≠ 0 → u < maxUnits) ∧
      readMagnitude true true {units := u, scale := k} fraction =
        .ok {units, scale := k + places, dropping := true, tail := ⟨digit, sticky⟩} := by
  induction fraction generalizing u k with
  | nil => exact absurd hu (Nat.not_le_of_gt (by simpa using h))
  | cons c fraction ih =>
    have hc := hdigits c List.mem_cons_self
    rw [List.length_cons] at hk
    rw [readMagnitude_digit hc]
    by_cases hstep : u * 10 + (c.toNat - 48) ≤ maxUnits
    · rw [append_fraction (by omega) hstep]
      have hmore : maxUnits < (u * 10 + (c.toNat - 48)) * 10 ^ fraction.length + digitsValue fraction := by
        rw [digitsValue_cons, List.length_cons] at h
        calc maxUnits < u * 10 ^ (fraction.length + 1) + ((c.toNat - 48) * 10 ^ fraction.length + digitsValue
            fraction) := h
          _ = (u * 10 + (c.toNat - 48)) * 10 ^ fraction.length + digitsValue fraction := by ring
      obtain ⟨places, units, digit, sticky, hplaces, hunits, hdigit, hover, -, -, hread⟩ :=
        ih hdigits.tail hstep (k := k + 1) (by omega) hmore
      refine ⟨places + 1, units, digit, sticky, ?_, hunits, hdigit, hover, nofun, fun _ => ?_, ?_⟩
      · rw [List.length_cons]
        omega
      · have : 0 < maxUnits := by decide
        omega
      · rw [show k + (places + 1) = k + 1 + places by omega]
        exact hread
    · have hover := Nat.lt_of_not_le hstep
      rw [append_fraction_drops (isDigit_value hc) hover]
      obtain ⟨sticky, hread⟩ := read_dropping hdigits.tail
        (m := {units := u, scale := k, dropping := true, tail := {digit := c.toNat - 48}}) rfl
      exact ⟨0, u, c.toNat - 48, sticky, by simp, hu, isDigit_value hc, hover, fun _ => ⟨rfl, rfl⟩,
        fun hne => absurd rfl hne, hread⟩

/-! ### Rounding -/

theorem fitToUnits_exact {value : Nat} (hvalue : value ≤ maxUnits) (hscale : scale ≤ maxScale) :
    ∃ m, fitToUnits value {} scale = .ok m ∧ m.units = value ∧ m.scale = scale := by
  have htail : RoundingTail.increments {} value = false := rfl
  have hfit : fitted value scale {} = some ⟨value, scale, hvalue, hscale⟩ := by
    simp [fitted, htail, hvalue, hscale]
  cases scale with
  | zero => exact ⟨⟨value, 0, hvalue, hscale⟩, by simp [fitToUnits, hfit], rfl, rfl⟩
  | succ scale => exact ⟨⟨value, scale + 1, hvalue, hscale⟩, by simp [fitToUnits, hfit], rfl, rfl⟩

theorem fitted_scale {value : Nat} {m : Magnitude} (h : fitted value scale tail = some m) : m.scale = scale := by
  obtain ⟨_, heq⟩ := Option.dite_none_right_eq_some.mp h
  cases heq
  rfl

theorem fitToUnits_scale {value : Nat} {m : Magnitude}
    (h : fitToUnits value tail scale = .ok m) : m.scale ≤ scale := by
  induction scale generalizing value tail with
  | zero =>
    rw [fitToUnits] at h
    split at h
    · rename_i hfit
      cases h
      exact Nat.le_of_eq (fitted_scale hfit)
    · cases h
  | succ scale ih =>
    rw [fitToUnits] at h
    split at h
    · rename_i hfit
      cases h
      exact Nat.le_of_eq (fitted_scale hfit)
    · exact Nat.le_succ_of_le (ih h)

theorem fitted_of_lt (tail : RoundingTail) {value : Nat} (hvalue : value < maxUnits) (hscale : scale ≤ maxScale) :
    ∃ m, fitted value scale tail = some m := by
  unfold fitted
  dsimp only
  have hrounded : (if tail.increments value = true then value + 1 else value) ≤ maxUnits := by
    split <;> omega
  exact ⟨_, dif_pos ⟨hscale, Nat.le_of_lt hvalue, hrounded⟩⟩

theorem fitToUnits_of_lt {value : Nat} (hvalue : value < maxUnits)
    (hscale : scale ≤ maxScale) : ∃ m, fitToUnits value tail scale = .ok m := by
  obtain ⟨m, hm⟩ := fitted_of_lt tail hvalue hscale
  cases scale with
  | zero | succ scale => exact ⟨m, by simp [fitToUnits, hm]⟩

/-- With a place to give up, every mantissa fits. -/
theorem fitToUnits_of_le {value : Nat} (hvalue : value ≤ maxUnits)
    (hscale : scale + 1 ≤ maxScale) : ∃ m, fitToUnits value tail (scale + 1) = .ok m := by
  rw [fitToUnits]
  cases hfit : fitted value (scale + 1) tail with
  | some m => exact ⟨m, rfl⟩
  | none =>
    have hless : value / 10 < maxUnits := by
      have : 0 < maxUnits := by decide
      omega
    exact fitToUnits_of_lt hless (by omega)

/-- The greatest mantissa is odd: it is rounded up from one half on, and then nothing fits. -/
theorem fitToUnits_max (digit : Nat) (sticky : Bool) :
    (5 ≤ digit → fitToUnits maxUnits ⟨digit, sticky⟩ 0 = .error .overflow) ∧
      (digit < 5 → ∃ m, fitToUnits maxUnits ⟨digit, sticky⟩ 0 = .ok m) := by
  have hodd : maxUnits % 2 = 1 := by decide
  constructor
  · intro hdigit
    have hincrements : RoundingTail.increments ⟨digit, sticky⟩ maxUnits = true := by
      simp only [RoundingTail.increments, Bool.or_eq_true, Bool.and_eq_true, decide_eq_true_eq]
      rcases Nat.lt_or_eq_of_le hdigit with hover | hhalf
      · exact .inl hover
      · exact .inr ⟨hhalf.symm, .inr hodd⟩
    have hnone : fitted maxUnits 0 ⟨digit, sticky⟩ = none := by
      refine dif_neg fun h => ?_
      have hle := h.2.2
      rw [if_pos hincrements] at hle
      exact Nat.not_succ_le_self _ hle
    rw [fitToUnits, hnone]
  · intro hdigit
    have hincrements : RoundingTail.increments ⟨digit, sticky⟩ maxUnits = false := by
      have hover : ¬ 5 < digit := by omega
      have hhalf : digit ≠ 5 := by omega
      simp [RoundingTail.increments, hover, hhalf]
    simp [fitToUnits, fitted, hincrements]

/-- A number whose whole part is the greatest mantissa lies half a unit or more beyond it exactly
where its first place is at least five. -/
theorem half_iff {p rest : Nat} (hrest : rest < p) :
    (2 ^ 97 - 1) * (p * 10) ≤ 2 * (maxUnits * (p * 10) + (digit * p + rest)) ↔ 5 ≤ digit := by
  have hsum : (2 ^ 97 - 1) * (p * 10) = 2 * (maxUnits * (p * 10)) + p * 10 := by
    rw [show 2 ^ 97 - 1 = 2 * maxUnits + 1 by decide]
    ring
  rw [hsum]
  constructor
  · intro h
    by_contra hsmall
    have hle : digit * p ≤ 4 * p := Nat.mul_le_mul_right p (by omega)
    omega
  · intro h
    have hle : 5 * p ≤ digit * p := Nat.mul_le_mul_right p h
    omega

/-! ### A text -/

section Text
variable {negative : Bool} {whole fraction : Bytes}

theorem fromInvariantString_signed (hdigits : Digits whole) (hne : whole ≠ []) :
    Decimal.fromInvariantString ((if negative then [Ch.minus] else []) ++ pointed whole fraction) =
      (do
        let m ← readMagnitude false false {} (pointed whole fraction)
        let fit ← fitToUnits m.units m.tail m.scale
        return Decimal.make fit negative) := by
  obtain ⟨c, rest, rfl⟩ := List.exists_cons_of_ne_nil hne
  have hc := hdigits c List.mem_cons_self
  have hspace : isSpace c = false := by
    simp only [isDigit, Bool.and_eq_true, decide_eq_true_eq, UInt8.le_iff_toNat_le] at hc
    simp only [isSpace, Bool.or_eq_false_iff, Bool.and_eq_false_iff, decide_eq_false_iff_not, UInt8.le_iff_toNat_le,
      ← UInt8.toNat_inj]
    have h48 : (48 : UInt8).toNat = 48 := rfl
    have h13 : (13 : UInt8).toNat = 13 := rfl
    have h32 : (32 : UInt8).toNat = 32 := rfl
    omega
  have hplus : c ≠ Ch.plus := by
    rintro rfl
    cases hc
  have hminus : c ≠ Ch.minus := by
    rintro rfl
    cases hc
  cases negative with
  | false =>
    simp only [Bool.false_eq_true, if_false, List.nil_append, pointed, List.cons_append]
    unfold Decimal.fromInvariantString
    simp only [List.dropWhile_cons_of_neg (p := isSpace) (by simp [hspace] : ¬ isSpace c = true), hplus, hminus,
      if_false]
  | true =>
    simp only [if_true, List.singleton_append]
    unfold Decimal.fromInvariantString
    have hsign : isSpace Ch.minus = false := rfl
    have hne : Ch.minus ≠ Ch.plus := by decide
    simp only [List.dropWhile_cons_of_neg (p := isSpace) (by simp [hsign] : ¬ isSpace Ch.minus = true), hne,
      if_false, if_true]

theorem read_pointed (hdigits : Digits whole) (hne : whole ≠ []) (h : digitsValue whole ≤ maxUnits) :
    readMagnitude false false {} (pointed whole fraction) =
      if fraction = [] then .ok {units := digitsValue whole}
      else readMagnitude true true {units := digitsValue whole} fraction := by
  have hwhole := read_whole false hdigits hne (u := 0) (if fraction = [] then [] else Ch.dot :: fraction)
    (by simpa using h)
  simp only [Nat.zero_mul, Nat.zero_add] at hwhole
  rw [pointed, hwhole]
  by_cases hnil : fraction = []
  · simp [hnil, readMagnitude]
  · simp [hnil, readMagnitude]

/-- Digits that fit are read as they are. -/
theorem fromInvariantString_exact (negative : Bool) (hwhole : Digits whole) (hne : whole ≠ [])
    (hfraction : Digits fraction)
    (hscale : fraction.length ≤ maxScale) (h : digitsValue (whole ++ fraction) ≤ maxUnits) :
    ∃ d : Decimal,
      Decimal.fromInvariantString ((if negative then [Ch.minus] else []) ++ pointed whole fraction) = .ok d ∧
      d.units = digitsValue (whole ++ fraction) ∧ d.scale = fraction.length ∧
      d.negative = (negative && decide (d.units ≠ 0)) := by
  rw [digitsValue_append] at h ⊢
  have hle : digitsValue whole ≤ maxUnits :=
    Nat.le_trans (Nat.le_mul_of_pos_right _ (Nat.pow_pos (by decide))) (Nat.le_trans (Nat.le_add_right _ _) h)
  obtain ⟨m, hm, hunits, hmscale⟩ := fitToUnits_exact h hscale
  have hread : readMagnitude false false {} (pointed whole fraction) =
      .ok {units := digitsValue whole * 10 ^ fraction.length + digitsValue fraction, scale :=
          fraction.length} := by
    rw [read_pointed hwhole hne hle]
    by_cases hnil : fraction = []
    · simp [hnil]
    · rw [if_neg hnil, read_fraction hfraction (by omega) h, Nat.zero_add]
  rw [fromInvariantString_signed hwhole hne, Fallible.bind_ok hread, Fallible.bind_ok hm]
  exact ⟨_, rfl, hunits, hmscale, by simp [Decimal.make]⟩

/-- From half a unit beyond the greatest mantissa on, they are refused. -/
theorem fromInvariantString_refuses (negative : Bool) (hwhole : Digits whole) (hne : whole ≠ [])
    (hfraction : Digits fraction)
    (hscale : fraction.length ≤ maxScale)
    (h : (2 ^ 97 - 1) * 10 ^ fraction.length ≤ 2 * digitsValue (whole ++ fraction)) :
    ∃ e, Decimal.fromInvariantString ((if negative then [Ch.minus] else []) ++ pointed whole fraction) =
        .error e := by
  rw [fromInvariantString_signed hwhole hne]
  rw [digitsValue_append] at h
  have hlt := digitsValue_lt hfraction
  by_cases hle : digitsValue whole ≤ maxUnits
  · -- the whole part is the greatest mantissa, and the first place is at least a half
    have hmax : digitsValue whole = maxUnits := by
      by_contra hne
      have hless : digitsValue whole + 1 ≤ maxUnits := Nat.lt_of_le_of_ne hle hne
      have hmul := Nat.mul_le_mul_right (10 ^ fraction.length) hless
      rw [Nat.add_mul, Nat.one_mul] at hmul
      have hhalf : 2 * (maxUnits * 10 ^ fraction.length) < (2 ^ 97 - 1) * 10 ^ fraction.length := by
        have hpos : 0 < 10 ^ fraction.length := Nat.pow_pos (by decide)
        rw [← Nat.mul_assoc]
        exact Nat.mul_lt_mul_of_pos_right (by decide) hpos
      omega
    have hover : maxUnits < digitsValue whole * 10 ^ fraction.length + digitsValue fraction := by
      have hpos : 0 < 10 ^ fraction.length := Nat.pow_pos (by decide)
      have hhalf : (2 * maxUnits + 1) * 10 ^ fraction.length ≤
          2 * (digitsValue whole * 10 ^ fraction.length + digitsValue fraction) := h
      have : 2 * maxUnits + 1 ≤ (2 * maxUnits + 1) * 10 ^ fraction.length := Nat.le_mul_of_pos_right _ hpos
      omega
    have hnil : fraction ≠ [] := by
      rintro rfl
      simp only [List.length_nil, pow_zero, Nat.mul_one, digitsValue_nil, Nat.add_zero] at hover
      omega
    rw [read_pointed hwhole hne hle, if_neg hnil]
    obtain ⟨places, units, digit, sticky, -, -, -, -, hfirst, hlater, hread⟩ :=
      read_fraction_drops hfraction hle (k := 0) (by omega) hover
    obtain rfl : places = 0 := by
      by_contra hplaces
      exact absurd (hlater hplaces) (by omega)
    obtain ⟨rfl, hhead⟩ := hfirst rfl
    have hhalf : 5 ≤ digit := by
      obtain ⟨c, rest, rfl⟩ := List.exists_cons_of_ne_nil hnil
      obtain rfl := Option.some.inj hhead
      rw [hmax, digitsValue_cons, List.length_cons, Nat.pow_succ 10] at h
      exact (half_iff (digitsValue_lt hfraction.tail)).mp h
    rw [Fallible.bind_ok hread, hmax, (fitToUnits_max _ sticky).1 hhalf]
    exact ⟨_, rfl⟩
  · have hover := read_whole_overflow false hwhole (u := 0) (Nat.zero_le _)
      (if fraction = [] then [] else Ch.dot :: fraction) (by simpa using Nat.lt_of_not_le hle)
    have hread : readMagnitude false false {} (pointed whole fraction) = .error .parsing := hover
    exact ⟨.parsing, by rw [hread]; rfl⟩

/-- In between, places are dropped. -/
theorem fromInvariantString_drops (negative : Bool) (hwhole : Digits whole) (hne : whole ≠ [])
    (hfraction : Digits fraction)
    (hscale : fraction.length ≤ maxScale) (hover : maxUnits < digitsValue (whole ++ fraction))
    (h : 2 * digitsValue (whole ++ fraction) < (2 ^ 97 - 1) * 10 ^ fraction.length) :
    ∃ d : Decimal,
      Decimal.fromInvariantString ((if negative then [Ch.minus] else []) ++ pointed whole fraction) = .ok d ∧
      d.scale < fraction.length := by
  rw [fromInvariantString_signed hwhole hne]
  rw [digitsValue_append] at h hover
  have hpos : 0 < 10 ^ fraction.length := Nat.pow_pos (by decide)
  have hle : digitsValue whole ≤ maxUnits := by
    by_contra hmore
    have hmul := Nat.mul_le_mul_right (10 ^ fraction.length) (Nat.lt_of_not_le hmore)
    have htwice : (2 ^ 97 - 1) * 10 ^ fraction.length ≤ 2 * ((maxUnits + 1) * 10 ^ fraction.length) := by
      rw [← Nat.mul_assoc]
      exact Nat.mul_le_mul_right _ (by decide)
    rw [Nat.succ_eq_add_one] at hmul
    omega
  have hnil : fraction ≠ [] := by
    rintro rfl
    simp only [List.length_nil, pow_zero, Nat.mul_one, digitsValue_nil, Nat.add_zero] at hover
    omega
  rw [read_pointed hwhole hne hle, if_neg hnil]
  obtain ⟨places, units, digit, sticky, hplaces, hunits, -, -, hfirst, -, hread⟩ :=
    read_fraction_drops hfraction hle (k := 0) (by omega) hover
  rw [Fallible.bind_ok hread]
  have hfit : ∃ m, fitToUnits units ⟨digit, sticky⟩ (0 + places) = .ok m := by
    rw [Nat.zero_add]
    cases places with
    | succ places => exact fitToUnits_of_le hunits (by omega)
    | zero =>
      obtain ⟨rfl, hhead⟩ := hfirst rfl
      rcases Nat.lt_or_eq_of_le hunits with hless | hmax
      · exact fitToUnits_of_lt hless (Nat.zero_le _)
      · rw [hmax]
        refine (fitToUnits_max _ sticky).2 ?_
        obtain ⟨c, rest, rfl⟩ := List.exists_cons_of_ne_nil hnil
        obtain rfl := Option.some.inj hhead
        rw [hmax, digitsValue_cons, List.length_cons, Nat.pow_succ 10] at h
        exact Nat.lt_of_not_le fun hge =>
          Nat.not_le_of_gt h ((half_iff (digitsValue_lt hfraction.tail)).mpr hge)
  obtain ⟨m, hm⟩ := hfit
  rw [Fallible.bind_ok hm]
  refine ⟨_, rfl, ?_⟩
  have hmscale := fitToUnits_scale hm
  show m.scale < _
  omega

end Text

/-! ### What a decimal is written as -/

/-- A decimal's text is its digits, with a point before the last of them. -/
theorem toInvariantString_pointed (d : Decimal) :
    ∃ whole fraction, d.toInvariantString = (if d.negative then [Ch.minus] else []) ++ pointed whole fraction ∧
      Digits whole ∧ whole ≠ [] ∧ Digits fraction ∧ fraction.length = d.scale ∧
      digitsValue (whole ++ fraction) = d.units := by
  let digits := natText d.units
  let shown := List.replicate (d.scale + 1 - digits.length) Ch.zero ++ digits
  have hshown : Digits shown := (digits_zeros _).append fun _ hc => isDigit_natText hc
  have hlength : d.scale + 1 ≤ shown.length := by
    simp only [shown, List.length_append, List.length_replicate]
    omega
  have hvalue : digitsValue shown = d.units := by
    rw [digitsValue_zeros_append, digitsValue_natText]
  by_cases hscale : d.scale = 0
  · refine ⟨digits, [], ?_, fun _ hc => isDigit_natText hc, natText_ne_nil _, fun _ hc => absurd hc List.not_mem_nil,
      hscale.symm, by rw [List.append_nil, digitsValue_natText]⟩
    simp [Decimal.toInvariantString, hscale, pointed, digits]
  · refine ⟨shown.take (shown.length - d.scale), shown.drop (shown.length - d.scale), ?_,
      hshown.sublist (List.take_sublist _ _), ?_, hshown.sublist (List.drop_sublist _ _), ?_, ?_⟩
    · have hne : shown.drop (shown.length - d.scale) ≠ [] := by
        rw [Ne, List.drop_eq_nil_iff]
        omega
      rw [pointed, if_neg hne]
      simp [Decimal.toInvariantString, hscale, shown, digits]
    · rw [Ne, List.take_eq_nil_iff, not_or]
      exact ⟨by omega, fun hnil => by rw [hnil, List.length_nil] at hlength; omega⟩
    · rw [List.length_drop]
      omega
    · rw [List.take_append_drop, hvalue]

theorem fromInvariantString_toInvariantString (d : Decimal) :
    Decimal.fromInvariantString d.toInvariantString = .ok d := by
  obtain ⟨whole, fraction, htext, hwhole, hne, hfraction, hscale, hunits⟩ := toInvariantString_pointed d
  obtain ⟨read, hread, hru, hrs, hrn⟩ := fromInvariantString_exact d.negative hwhole hne hfraction
    (hscale ▸ d.places) (hunits ▸ d.fits)
  rw [htext, hread]
  congr 1
  have hnegative : read.negative = d.negative := by
    rw [hrn, hru, hunits]
    cases hd : d.negative with
    | false => rfl
    | true => simp [d.signed hd]
  have hruled : read.units = d.units := hru.trans hunits
  have hrscale : read.scale = d.scale := hrs.trans hscale
  obtain ⟨units, scale, negative, fits, places, signed⟩ := read
  obtain ⟨units', scale', negative', fits', places', signed'⟩ := d
  dsimp only at hnegative hruled hrscale
  subst hnegative hruled hrscale
  rfl

end Agiru
