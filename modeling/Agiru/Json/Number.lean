import Agiru.Library.Digits
import Agiru.Values.Decimal

/-! Numbers of a JSON text, kept as they were written.

A number is read when it is asked for: `exactJsonDecimal` rewrites it without an exponent, and the
decimal or the integer is read from that. -/
namespace Agiru.Json
open Bytes

/-! ### Number texts -/

structure Exponent where
  upper : Bool
  /-- Whether there is a sign, and whether it is a minus. -/
  sign : Option Bool
  digits : Bytes
  some_digit : digits ≠ []
  are_digits : Digits digits

/-- A number as the grammar has it. Without a fraction there is no point. -/
structure JsonNumber where
  negative : Bool
  whole : Bytes
  fraction : Bytes
  exponent : Option Exponent
  some_digit : whole ≠ []
  whole_digits : Digits whole
  no_leading_zero : whole.head? = some Ch.zero → whole.length = 1
  fraction_digits : Digits fraction

/-- What follows the letter. -/
def Exponent.signed (exponent : Exponent) : Bytes :=
  (match exponent.sign with
    | none => []
    | some minus => [if minus then Ch.minus else Ch.plus]) ++ exponent.digits

def Exponent.text (exponent : Exponent) : Bytes :=
  (if exponent.upper then 69 else 101) :: exponent.signed

def Exponent.value (exponent : Exponent) : Int :=
  if exponent.sign = some true then -digitsValue exponent.digits else digitsValue exponent.digits

namespace JsonNumber

/-- The digits and the point. -/
def mantissa (number : JsonNumber) : Bytes :=
  number.whole ++ (if number.fraction = [] then [] else Ch.dot :: number.fraction)

def text (number : JsonNumber) : Bytes :=
  (if number.negative then [Ch.minus] else []) ++ number.mantissa ++
    (number.exponent.map Exponent.text).getD []

def scale (number : JsonNumber) : Int :=
  number.fraction.length - (number.exponent.map Exponent.value).getD 0

/-- The rational number. -/
def value (number : JsonNumber) : ℚ :=
  (if number.negative then -1 else 1) * digitsValue (number.whole ++ number.fraction) *
    (10 : ℚ) ^ (-number.scale)

end JsonNumber

/-! ### Reading them -/

/-- A whole number of 64 bits: `std::from_chars`, where all of the text is read. -/
def fromChars (text : Bytes) : Option Int :=
  let negative := text.head? = some Ch.minus
  let digits := if negative then text.tail else text
  let value : Int := if negative then -digitsValue digits else digitsValue digits
  if digits ≠ [] ∧ Digits digits ∧ -2 ^ 63 ≤ value ∧ value < 2 ^ 63 then some value else none

/-- The digits without their exponent, and the exponent. -/
def jsonNumberExponent (digits : Bytes) : Except Bytes (Bytes × Int) :=
  match digits.span fun c => c ≠ 101 && c ≠ 69 with
  | (_, []) => .ok (digits, 0)
  | (mantissa, _ :: exponentText) =>
    match fromChars (if exponentText.head? = some Ch.plus then exponentText.tail else exponentText) with
    | none => .error (ascii "JSON number exponent is out of range")
    | some exponent => .ok (mantissa, exponent)

/-- The digits without their point. -/
def withoutPoint (seenPoint : Bool) : Bytes → Option Bytes
  | [] => some []
  | c :: rest =>
    if c = Ch.dot ∧ !seenPoint then withoutPoint true rest
    else if isDigit c then (withoutPoint seenPoint rest).map (c :: ·)
    else none

def jsonCoefficient (digits : Bytes) : Except Bytes Bytes :=
  match withoutPoint false digits with
  | none | some [] => .error (ascii "JSON value is not an exact number")
  | some coefficient => .ok coefficient

/-- How many digits follow the point. -/
def places (digits : Bytes) : Int :=
  match digits.findIdx? (· = Ch.dot) with
  | none => 0
  | some point => digits.length - point - 1

/-- The zeros that end a fraction, of digits that are read from the last one. -/
def dropFractionZeros : Bytes → Int → Bytes × Int
  | [], scale => ([], scale)
  | c :: rest, scale =>
    if 0 < scale ∧ c = Ch.zero then dropFractionZeros rest (scale - 1) else (c :: rest, scale)

/-- A coefficient with its point. -/
def placed (coefficient : Bytes) (scale : Int) : Bytes :=
  let coefficient := coefficient ++ List.replicate (-scale).toNat Ch.zero
  if 0 < scale then
    let padded := List.replicate (scale.toNat + 1 - coefficient.length) Ch.zero ++ coefficient
    padded.take (padded.length - scale.toNat) ++ [Ch.dot] ++ padded.drop (padded.length - scale.toNat)
  else coefficient

abbrev maximumDecimalScale : Int := 28
abbrev maximumDecimalDigits : Int := 29

def exactJsonDecimal (text : Bytes) : Except Bytes Bytes := do
  let negative := text.head? = some Ch.minus
  let digits := if text.head? = some Ch.minus ∨ text.head? = some Ch.plus then text.tail else text
  let (digits, exponent) ← jsonNumberExponent digits
  let coefficient ← jsonCoefficient digits
  let coefficient := coefficient.dropWhile (· = Ch.zero)
  if coefficient = [] then return ascii "0"
  else if exponent < -digits.length - maximumDecimalScale ∨ digits.length + maximumDecimalDigits < exponent then
    .error (ascii "JSON number cannot be represented exactly as Decimal")
  else
    let (coefficient, scale) := dropFractionZeros coefficient.reverse (places digits - exponent)
    if maximumDecimalScale < scale ∨ maximumDecimalDigits < coefficient.reverse.length - scale then
      .error (ascii "JSON number cannot be represented exactly as Decimal")
    else return (if negative then [Ch.minus] else []) ++ placed coefficient.reverse scale

def jsonInteger (text : Bytes) : Except Bytes Int := do
  let exact ← exactJsonDecimal text
  match fromChars exact with
  | none => .error (ascii "JSON number cannot be converted to BigInteger without loss of precision")
  | some value => .ok value

/-- `AsBigInteger`, of a number. -/
def asBigInteger (text : Bytes) : Except Bytes Int := jsonInteger text

/-- `AsInteger`. -/
def asInteger (text : Bytes) : Except Bytes Int := do
  let value ← jsonInteger text
  if value < -2 ^ 31 ∨ 2 ^ 31 - 1 < value then .error (ascii "JSON number does not fit an Integer")
  return value

/-- `AsDecimal`, of a number. -/
def asDecimal (text : Bytes) : Except Bytes Decimal := do
  let exact ← exactJsonDecimal text
  (Decimal.fromInvariantString exact).mapError DecimalError.text

/-- `operator==`, of two numbers. -/
def sameNumber (text other : Bytes) : Except Bytes Bool := do
  let a ← asDecimal text
  let b ← asDecimal other
  return a.compare b = .eq

end Agiru.Json
