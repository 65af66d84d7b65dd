import Agiru.Values.Arithmetic
import Agiru.Values.Parsed

/-! The numbers that texts are, and the decimals that are read of them.

A text may have any number of digits. Those that fit are kept, of the first that does not the digit, and of all
behind it whether one is not zero (`Reads`); so the text's number is rounded once. -/
namespace Agiru
open Bytes Rounding

/-- A number as it may be written: white space, a sign, and digits with at most one point. -/
structure Numeral where
  spaces : Bytes
  sign : Option Bool
  whole : Bytes
  fraction : Option Bytes
  blank : ∀ c ∈ spaces, isSpace c = true
  digits : Digits (whole ++ fraction.getD [])
  written : whole ++ fraction.getD [] ≠ []

namespace Numeral
variable (n : Numeral)

def negative : Bool := n.sign.getD false

/-- The digits behind the point. -/
def behind : Bytes := n.fraction.getD []

def signText : Bytes :=
  match n.sign with
  | none => []
  | some true => [Ch.minus]
  | some false => [Ch.plus]

/-- The digits and the point. -/
def figures : Bytes :=
  match n.fraction with
  | none => n.whole
  | some fraction => n.whole ++ Ch.dot :: fraction

def text : Bytes := n.spaces ++ n.signText ++ n.figures

/-- The number that the digits are. -/
def magnitude : ℚ := digitsValue (n.whole ++ n.behind) / 10 ^ n.behind.length

def value : ℚ := Agiru.sign n.negative * n.magnitude

theorem magnitude_nonneg : 0 ≤ n.magnitude := by
  unfold magnitude
  positivity

end Numeral

/-! ### The digits read -/

theorem RoundingTail.Of.append {tail : RoundingTail} {r p : Nat} (h : tail.Of r p) (heven : p % 2 = 0) {digit : Nat}
    (hdigit : digit < 10) : (tail.append digit).Of (r * 10 + digit) (p * 10) := by
  have hsame : (tail.append digit).digit = tail.digit := rfl
  have hsticky : (tail.append digit).sticky = false ↔ tail.sticky = false ∧ digit = 0 := by
    rw [RoundingTail.append, Bool.or_eq_false_iff, decide_eq_false_iff_not, not_not]
  have hsticky' : (tail.append digit).sticky = true ↔ tail.sticky = true ∨ digit ≠ 0 := by
    rw [RoundingTail.append, Bool.or_eq_true, decide_eq_true_eq]
  constructor
  · rw [hsame, hsticky, ← and_assoc, h.nothing]
    omega
  · rw [hsame, hsticky, ← and_assoc, h.half]
    omega
  · have hmore := h.more
    have hhalf := h.half
    rw [hsame, hsticky']
    cases hcase : tail.sticky with
    | false =>
      simp only [hcase, Bool.false_eq_true, and_false, or_false, and_true, false_or] at hmore hhalf ⊢
      omega
    | true =>
      simp only [hcase, Bool.true_eq_false, and_false, and_true, true_or, false_iff] at hmore hhalf ⊢
      omega

/-- What has been read of digits that are `value`, of which `places` are behind the point: all of them, or those
that fit and what the rest says of the rounding. -/
def Reads (m : ParsedMagnitude) (value places : Nat) : Prop :=
  m.units ≤ maxUnits ∧ m.scale ≤ maxScale ∧
    if m.dropping then
      ∃ dropped r, places = m.scale + (dropped + 1) ∧ value = m.units * 10 ^ (dropped + 1) + r ∧
        r < 10 ^ (dropped + 1) ∧ m.tail.Of r (10 ^ (dropped + 1)) ∧
        (m.scale < maxScale → maxUnits < value / 10 ^ dropped)
    else m.units = value ∧ m.scale = places ∧ m.tail = {}

theorem reads_append {m : ParsedMagnitude} {value places digit : Nat} (h : Reads m value places) (hdigit : digit < 10) :
    ∃ next, m.append digit true = .ok next ∧ Reads next (value * 10 + digit) (places + 1) := by
  obtain ⟨hunits, hscale, hread⟩ := h
  cases hdropping : m.dropping with
  | true =>
    rw [if_pos hdropping] at hread
    obtain ⟨dropped, r, hplaces, hvalue, hr, htail, hgreat⟩ := hread
    have heven : 10 ^ (dropped + 1) % 2 = 0 := by
      rw [pow_succ]
      omega
    refine ⟨{m with tail := m.tail.append digit}, by rw [ParsedMagnitude.append, if_pos hdropping], hunits, hscale, ?_⟩
    rw [if_pos hdropping]
    refine ⟨dropped + 1, r * 10 + digit, by dsimp only; omega, ?_, ?_, ?_, fun hmore => ?_⟩
    · rw [hvalue, pow_succ 10 (dropped + 1)]
      ring
    · rw [pow_succ 10 (dropped + 1)]
      omega
    · exact pow_succ 10 (dropped + 1) ▸ htail.append heven hdigit
    · rw [pow_succ', ← Nat.div_div_eq_div_mul, show (value * 10 + digit) / 10 = value by omega]
      exact hgreat hmore
  | false =>
    rw [if_neg (by rw [hdropping]; exact Bool.false_ne_true)] at hread
    obtain ⟨rfl, rfl, htail⟩ := hread
    have hmax : 10 ≤ maxUnits := by decide
    by_cases hdrops : m.scale = maxScale ∨ (maxUnits - digit) / 10 < m.units
    · refine ⟨{m with dropping := true, tail := m.tail.prepend digit}, ?_, hunits, hscale, ?_⟩
      · rw [ParsedMagnitude.append, hdropping, if_neg Bool.false_ne_true, if_pos (by simpa using hdrops)]
      · rw [if_pos rfl]
        refine ⟨0, digit, rfl, by rw [Nat.zero_add, pow_one], by rw [Nat.zero_add, pow_one]; exact hdigit, ?_,
          fun hmore => ?_⟩
        · have hfirst := RoundingTail.of_nothing.prepend (by decide) digit
          rw [Nat.mul_one, Nat.add_zero, Nat.one_mul] at hfirst
          show (m.tail.prepend digit).Of digit (10 ^ (0 + 1))
          rw [htail]
          exact hfirst
        · dsimp only at hmore
          rw [pow_zero, Nat.div_one]
          omega
    · obtain ⟨hplace, hroom⟩ := not_or.mp hdrops
      refine ⟨{m with units := m.units * 10 + digit, scale := m.scale + 1}, ?_, ?_, ?_, ?_⟩
      · rw [ParsedMagnitude.append, hdropping, if_neg Bool.false_ne_true, if_neg (by simpa using hdrops), if_neg hroom]
        simp
      · show m.units * 10 + digit ≤ maxUnits
        omega
      · show m.scale + 1 ≤ maxScale
        omega
      · rw [if_neg (by rw [hdropping]; exact Bool.false_ne_true)]
        exact ⟨rfl, rfl, htail⟩

/-- Digits behind the point are all read. -/
theorem reads_fraction {fraction : Bytes} (hdigits : Digits fraction) {seen : Bool} (hseen : seen = true ∨ fraction ≠ [])
    {m : ParsedMagnitude} {value places : Nat} (h : Reads m value places) :
    ∃ last, readMagnitude seen true m fraction = .ok last ∧
      Reads last (value * 10 ^ fraction.length + digitsValue fraction) (places + fraction.length) := by
  induction fraction generalizing seen m value places with
  | nil =>
    rw [or_iff_left fun hne => hne rfl] at hseen
    refine ⟨m, by rw [readMagnitude, if_pos hseen], ?_⟩
    rw [List.length_nil, pow_zero, Nat.mul_one, digitsValue_nil, Nat.add_zero, Nat.add_zero]
    exact h
  | cons c fraction ih =>
    have hc := hdigits c List.mem_cons_self
    obtain ⟨next, happend, hnext⟩ := reads_append h (isDigit_value hc)
    obtain ⟨last, hlast, hreads⟩ := ih hdigits.tail (.inl rfl) hnext
    refine ⟨last, by rw [readMagnitude_digit hc, happend]; exact hlast, ?_⟩
    have hvalue : value * 10 ^ (c :: fraction).length + digitsValue (c :: fraction) =
        (value * 10 + (c.toNat - 48)) * 10 ^ fraction.length + digitsValue fraction := by
      rw [digitsValue_cons, List.length_cons]
      ring
    rw [hvalue, List.length_cons, Nat.add_comm fraction.length, ← Nat.add_assoc]
    exact hreads

/-- What was read is fitted as the number that was written, rounded once. -/
theorem Reads.fit {m : ParsedMagnitude} {value places : Nat} (h : Reads m value places) :
    Fit (value / 10 ^ places) m.scale (fitToUnits m.units m.tail m.scale) ∧ m.scale ≤ places ∧
      (m.scale < places → m.scale < maxScale → (maxUnits : ℚ) + 1 ≤ value / 10 ^ places * 10 ^ (m.scale + 1)) := by
  obtain ⟨hunits, hscale, hread⟩ := h
  cases hdropping : m.dropping with
  | true =>
    rw [if_pos hdropping] at hread
    obtain ⟨dropped, r, rfl, hvalue, hr, htail, hgreat⟩ := hread
    refine ⟨?_, Nat.le_add_right _ _, fun _ hmore => ?_⟩
    · have hspec := fitToUnits_spec m.units htail hr m.scale
      rw [← hvalue, Nat.cast_pow, Nat.cast_ofNat, ← pow_add, Nat.add_comm (dropped + 1)] at hspec
      exact hspec
    · have hten : (0 : ℚ) < 10 ^ dropped := by positivity
      have hplaces : (10 : ℚ) ^ (m.scale + (dropped + 1)) = 10 ^ dropped * 10 ^ (m.scale + 1) := by
        rw [← pow_add]
        congr 1
        omega
      rw [hplaces, ← div_div, div_mul_cancel₀ _ (pow_ne_zero _ (by norm_num)), le_div_iff₀ hten]
      have hle := (Nat.le_div_iff_mul_le (Nat.pow_pos (by decide))).mp (hgreat hmore)
      exact_mod_cast hle
  | false =>
    rw [if_neg (by rw [hdropping]; exact Bool.false_ne_true)] at hread
    obtain ⟨rfl, rfl, htail⟩ := hread
    refine ⟨?_, le_rfl, fun hless => absurd hless (lt_irrefl _)⟩
    have hspec := fitToUnits_spec m.units RoundingTail.of_nothing (by decide) m.scale
    rw [Nat.mul_one, Nat.add_zero, Nat.cast_one, one_mul] at hspec
    rw [htail]
    exact hspec

/-! ### A text -/

namespace Numeral
variable (n : Numeral)

theorem whole_digits : Digits n.whole := n.digits.of_append_left

theorem behind_digits : Digits n.behind := n.digits.of_append_right

theorem figures_cons : ∃ c rest, n.figures = c :: rest ∧ (isDigit c = true ∨ c = Ch.dot) := by
  have hwritten := n.written
  have hdigits := n.whole_digits
  unfold figures
  cases hwhole : n.whole with
  | cons c rest =>
    rw [hwhole] at hdigits
    have hc := hdigits c List.mem_cons_self
    cases n.fraction with
    | none => exact ⟨c, rest, rfl, .inl hc⟩
    | some fraction => exact ⟨c, rest ++ Ch.dot :: fraction, rfl, .inl hc⟩
  | nil =>
    cases hfraction : n.fraction with
    | none =>
      rw [hwhole, hfraction] at hwritten
      exact absurd rfl hwritten
    | some fraction => exact ⟨Ch.dot, fraction, rfl, .inr rfl⟩

/-- White space and the sign are taken off. -/
theorem fromInvariantString_text : Decimal.fromInvariantString n.text = (do
    let m ← readMagnitude false false {} n.figures
    let fit ← fitToUnits m.units m.tail m.scale
    return Decimal.make fit n.negative) := by
  obtain ⟨c, rest, hfigures, hc⟩ := n.figures_cons
  have hspace : isSpace c = false := by
    rcases hc with hdigit | rfl
    · exact isSpace_digit hdigit
    · rfl
  have hplus : c ≠ Ch.plus := by
    rintro rfl
    rcases hc with hdigit | hdot
    · cases hdigit
    · exact absurd hdot (by decide)
  have hminus : c ≠ Ch.minus := by
    rintro rfl
    rcases hc with hdigit | hdot
    · cases hdigit
    · exact absurd hdot (by decide)
  have htrim : ∀ {d : UInt8} {more : Bytes}, isSpace d = false →
      (n.spaces ++ d :: more).dropWhile isSpace = d :: more := by
    intro d more hd
    rw [List.dropWhile_append_of_pos n.blank, List.dropWhile_cons_of_neg (by rw [hd]; exact Bool.false_ne_true)]
  unfold Decimal.fromInvariantString text signText negative
  cases n.sign with
  | none =>
    rw [List.append_nil, hfigures, htrim hspace]
    simp only [hplus, hminus, if_false]
    rfl
  | some sign =>
    cases sign with
    | true | false =>
      rw [List.append_assoc, List.singleton_append, htrim (by decide)]
      rfl

/-- The figures are read, where those before the point fit. -/
theorem reads_figures (h : digitsValue n.whole ≤ maxUnits) :
    ∃ last, readMagnitude false false {} n.figures = .ok last ∧
      Reads last (digitsValue (n.whole ++ n.behind)) n.behind.length := by
  have hstart : ∀ {units : Nat}, units ≤ maxUnits → Reads {units} units 0 := fun hunits =>
    ⟨hunits, Nat.zero_le _, rfl, rfl, rfl⟩
  have hpoint : ∀ {seen : Bool} {m : ParsedMagnitude} {fraction : Bytes},
      readMagnitude seen false m (Ch.dot :: fraction) = readMagnitude seen true m fraction := by
    intro seen m fraction
    rw [readMagnitude, if_pos rfl, if_neg Bool.false_ne_true]
  have hwritten := n.written
  have hbehind := n.behind_digits
  unfold figures behind at *
  by_cases hwhole : n.whole = []
  · rw [hwhole, List.nil_append] at hwritten ⊢
    cases hfraction : n.fraction with
    | none =>
      rw [hfraction] at hwritten
      exact absurd rfl hwritten
    | some fraction =>
      rw [hfraction, Option.getD_some] at hwritten hbehind
      obtain ⟨last, hlast, hreads⟩ := @reads_fraction fraction hbehind false (.inr hwritten) _ _ _ (hstart (Nat.zero_le _))
      refine ⟨last, hpoint.trans hlast, ?_⟩
      rw [Nat.zero_mul, Nat.zero_add, Nat.zero_add] at hreads
      exact hreads
  · have hread : ∀ rest, readMagnitude false false {} (n.whole ++ rest) =
        readMagnitude true false {units := digitsValue n.whole} rest := by
      intro rest
      have hdigits := read_whole false n.whole_digits hwhole (u := 0) rest (by simpa using h)
      rwa [Nat.zero_mul, Nat.zero_add] at hdigits
    cases hfraction : n.fraction with
    | none =>
      have hplain := hread []
      rw [List.append_nil] at hplain
      refine ⟨_, hplain, ?_⟩
      rw [Option.getD_none, List.append_nil]
      exact hstart h
    | some fraction =>
      rw [hfraction, Option.getD_some] at hbehind
      obtain ⟨last, hlast, hreads⟩ := reads_fraction hbehind (.inl rfl) (hstart h)
      refine ⟨last, (hread _).trans (hpoint.trans hlast), ?_⟩
      rw [Nat.zero_add, ← digitsValue_append] at hreads
      exact hreads

/-- Figures before the point that do not fit are refused. -/
theorem figures_refused (h : maxUnits < digitsValue n.whole) :
    readMagnitude false false {} n.figures = .error .parsing ∧ ¬ Fits n.value 0 := by
  constructor
  · have hover := fun rest => read_whole_overflow false n.whole_digits (u := 0) (Nat.zero_le _) rest (by simpa using h)
    unfold figures
    cases n.fraction with
    | none =>
      have hplain := hover []
      rwa [List.append_nil] at hplain
    | some fraction => exact hover _
  · have hten : (0 : ℚ) < 10 ^ n.behind.length := by positivity
    have hgreat : (maxUnits : ℚ) + 1 ≤ n.magnitude := by
      rw [magnitude, le_div_iff₀ hten, digitsValue_append]
      have hle : (maxUnits + 1) * 10 ^ n.behind.length ≤
          digitsValue n.whole * 10 ^ n.behind.length + digitsValue n.behind :=
        (Nat.mul_le_mul_right _ h).trans (Nat.le_add_right _ _)
      exact_mod_cast hle
    rw [value, fits_signed n.magnitude_nonneg, pow_zero, mul_one, not_le]
    exact over_of_le hgreat

/-- A text's number is rounded once, to the places that were written and that fit. -/
theorem fromInvariantString_rounds :
    match Decimal.fromInvariantString n.text with
    | .ok d => Fits n.value 0 ∧ Largest n.value n.behind.length d.scale ∧
        d.rational = halfEven (n.value * 10 ^ d.scale) / 10 ^ d.scale
    | .error e => (e = .parsing ∨ e = .overflow) ∧ ¬ Fits n.value 0 := by
  rw [fromInvariantString_text]
  by_cases hwhole : digitsValue n.whole ≤ maxUnits
  · obtain ⟨last, hlast, hreads⟩ := n.reads_figures hwhole
    obtain ⟨hfit, hplaces, hgreat⟩ := hreads.fit
    rw [Fallible.bind_ok hlast]
    have hnonneg := n.magnitude_nonneg
    change Fit n.magnitude _ _ at hfit
    cases hmantissa : fitToUnits last.units last.tail last.scale with
    | error refusal =>
      rw [hmantissa] at hfit
      obtain ⟨rfl, hover⟩ := hfit
      refine ⟨.inr rfl, ?_⟩
      rw [value, fits_signed hnonneg, pow_zero, mul_one, not_le]
      exact hover
    | ok m =>
      rw [hmantissa] at hfit
      exact ⟨(hfit.fits rfl hnonneg).mono (Nat.zero_le _), hfit.largest rfl hnonneg hplaces hgreat, hfit.rational rfl⟩
  · obtain ⟨hrefused, hfits⟩ := n.figures_refused (Nat.lt_of_not_le hwhole)
    rw [hrefused]
    exact ⟨.inl rfl, hfits⟩

end Numeral

/-! ### What is accepted -/

/-- Behind the point there are digits only. -/
theorem digits_of_read {seen : Bool} {m last : ParsedMagnitude} {text : Bytes}
    (h : readMagnitude seen true m text = .ok last) : Digits text ∧ (seen = true ∨ text ≠ []) := by
  induction text generalizing seen m with
  | nil =>
    rw [readMagnitude] at h
    split at h
    · next hseen => exact ⟨fun c hc => absurd hc List.not_mem_nil, .inl hseen⟩
    · cases h
  | cons c text ih =>
    rw [readMagnitude] at h
    split at h
    · cases h
    · split at h
      · cases h
      · next hdigit =>
        split at h
        · cases h
        · obtain ⟨hrest, -⟩ := ih h
          refine ⟨fun d hd => ?_, .inr (List.cons_ne_nil _ _)⟩
          rcases List.mem_cons.mp hd with rfl | hd
          · simpa using hdigit
          · exact hrest d hd

/-- Figures are digits, with at most one point among them. -/
theorem figures_of_read {seen : Bool} {m last : ParsedMagnitude} {text : Bytes}
    (h : readMagnitude seen false m text = .ok last) :
    ∃ whole, ∃ fraction : Option Bytes, Digits (whole ++ fraction.getD []) ∧
      (seen = true ∨ whole ++ fraction.getD [] ≠ []) ∧
      text = whole ++ (fraction.map (Ch.dot :: ·)).getD [] := by
  induction text generalizing seen m with
  | nil =>
    rw [readMagnitude] at h
    split at h
    · next hseen => exact ⟨[], none, fun c hc => absurd hc List.not_mem_nil, .inl hseen, rfl⟩
    · cases h
  | cons c text ih =>
    rw [readMagnitude] at h
    split at h
    · next hdot =>
      split at h
      · cases h
      · obtain ⟨hdigits, hseen⟩ := digits_of_read h
        exact ⟨[], some text, hdigits, hseen, by rw [hdot]; rfl⟩
    · split at h
      · cases h
      · next hdigit =>
        split at h
        · cases h
        · obtain ⟨whole, fraction, hdigits, -, rfl⟩ := ih h
          refine ⟨c :: whole, fraction, fun d hd => ?_, .inr (List.cons_ne_nil _ _), rfl⟩
          rcases List.mem_cons.mp hd with rfl | hd
          · simpa using hdigit
          · exact hdigits d hd

/-- What is accepted is a number. -/
theorem numeral_of_read {text : Bytes} {d : Decimal} (h : Decimal.fromInvariantString text = .ok d) :
    ∃ n : Numeral, n.text = text := by
  have hsplit := List.takeWhile_append_dropWhile (p := isSpace) (l := text)
  have hblank : ∀ c ∈ text.takeWhile isSpace, isSpace c = true := fun c hc => List.mem_takeWhile_imp hc
  have hnumeral : ∀ (sign : Option Bool) (figures : Bytes),
      (∃ last, readMagnitude false false {} figures = .ok last) →
        ∃ n : Numeral, n.spaces = text.takeWhile isSpace ∧ n.sign = sign ∧ n.figures = figures := by
    intro sign figures hread
    obtain ⟨last, hlast⟩ := hread
    obtain ⟨whole, fraction, hdigits, hwritten, rfl⟩ := figures_of_read hlast
    have hwritten := hwritten.resolve_left Bool.false_ne_true
    refine ⟨⟨text.takeWhile isSpace, sign, whole, fraction, hblank, hdigits, hwritten⟩, rfl, rfl, ?_⟩
    cases fraction with
    | none => exact (List.append_nil _).symm
    | some fraction => rfl
  unfold Decimal.fromInvariantString at h
  obtain ⟨last, hlast, -⟩ := Fallible.of_bind h
  cases hrest : text.dropWhile isSpace with
  | nil =>
    rw [hrest] at hlast
    cases hlast
  | cons c rest =>
    rw [hrest] at hlast hsplit
    dsimp only at hlast
    by_cases hplus : c = Ch.plus
    · rw [if_pos hplus] at hlast
      obtain ⟨n, hspaces, hsign, hfigures⟩ := hnumeral (some false) rest ⟨last, hlast⟩
      refine ⟨n, ?_⟩
      rw [Numeral.text, Numeral.signText, hspaces, hsign, hfigures, List.append_assoc, List.singleton_append, ← hplus]
      exact hsplit
    · rw [if_neg hplus] at hlast
      by_cases hminus : c = Ch.minus
      · rw [if_pos hminus] at hlast
        obtain ⟨n, hspaces, hsign, hfigures⟩ := hnumeral (some true) rest ⟨last, hlast⟩
        refine ⟨n, ?_⟩
        rw [Numeral.text, Numeral.signText, hspaces, hsign, hfigures, List.append_assoc, List.singleton_append,
          ← hminus]
        exact hsplit
      · rw [if_neg hminus] at hlast
        obtain ⟨n, hspaces, hsign, hfigures⟩ := hnumeral none (c :: rest) ⟨last, hlast⟩
        refine ⟨n, ?_⟩
        rw [Numeral.text, Numeral.signText, hspaces, hsign, hfigures, List.append_nil]
        exact hsplit

/-- **Decimals and texts convert exactly.** A decimal's text is read as that decimal. What is accepted is a number,
and it is read as that number, rounded once to the places that were written and that fit; a number is refused
where it does not even fit without places. -/
theorem Decimal.conversion_exact :
    (∀ d : Decimal, fromInvariantString d.toInvariantString = .ok d) ∧
      (∀ n : Numeral,
        match fromInvariantString n.text with
        | .ok d => Fits n.value 0 ∧ Largest n.value n.behind.length d.scale ∧
            d.rational = halfEven (n.value * 10 ^ d.scale) / 10 ^ d.scale
        | .error e => (e = .parsing ∨ e = .overflow) ∧ ¬ Fits n.value 0) ∧
      ∀ text d, fromInvariantString text = .ok d → ∃ n : Numeral, n.text = text :=
  ⟨fromInvariantString_toInvariantString, Numeral.fromInvariantString_rounds, fun _ _ => numeral_of_read⟩

end Agiru
