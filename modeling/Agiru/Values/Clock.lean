import Agiru.Library.Bytes

/-! Dates, times of day and instants, and their invariant texts.

A date is a serial number, two for each day since 1753-01-01, the odd one for the
closing date; zero is the undefined date. An instant is milliseconds since then. -/
namespace Agiru

/-- `std::format("{:0width}")` of a number that is not negative. -/
def padded (width n : Nat) : Bytes :=
  List.replicate (width - (Bytes.natText n).length) Bytes.Ch.zero ++ Bytes.natText n

/-- `std::to_string`. -/
def intText (n : Int) : Bytes :=
  (if n < 0 then [Bytes.Ch.minus] else []) ++ Bytes.natText n.natAbs

namespace Calendar

abbrev daysPerEra : Int := 146097
abbrev eraToEpoch : Int := 719468

structure Civil where
  year : Int
  month : Nat
  day : Nat
  deriving Repr, DecidableEq

def daysFromCivil (y : Int) (m d : Nat) : Int :=
  let y := if m ≤ 2 then y - 1 else y
  let era := y / 400
  let yoe := (y - era * 400).toNat
  let doy := (153 * (if m > 2 then m - 3 else m + 9) + 2) / 5 + d - 1
  let doe := yoe * 365 + yoe / 4 - yoe / 100 + doy
  era * daysPerEra + doe - eraToEpoch

def civilFromDays (days : Int) : Civil :=
  let z := days + eraToEpoch
  let era := z / daysPerEra
  let doe := (z - era * daysPerEra).toNat
  let yoe := (doe - doe / 1460 + doe / 36524 - doe / 146096) / 365
  let y := (yoe : Int) + era * 400
  let doy := doe - (365 * yoe + yoe / 4 - yoe / 100)
  let mp := (5 * doy + 2) / 153
  let d := doy - (153 * mp + 2) / 5 + 1
  let m := if mp < 10 then mp + 3 else mp - 9
  ⟨if m ≤ 2 then y + 1 else y, m, d⟩

def isLeapYear (y : Int) : Bool := (y % 4 = 0 && y % 100 ≠ 0) || y % 400 = 0

def lastDayOfMonth (y : Int) (m : Nat) : Nat :=
  if m = 2 && isLeapYear y then 29
  else [0, 31, 28, 31, 30, 31, 30, 31, 31, 30, 31, 30, 31].getD m 0

def isRealDate (y : Int) (m d : Nat) : Bool :=
  1 ≤ m && m ≤ 12 && 1 ≤ d && d ≤ lastDayOfMonth y m

end Calendar

abbrev epoch : Int := -79257
abbrev lastDayIndex : Nat := 3012153

example : Calendar.daysFromCivil 1753 1 1 = epoch := by decide
example : Calendar.daysFromCivil 9999 12 31 - epoch = lastDayIndex := by decide

structure Date where
  serial : Nat
  known : serial = 0 ∨ 2 ≤ serial
  bounded : serial ≤ (lastDayIndex + 1) * 2 + 1
  deriving DecidableEq

namespace Date

def undefined : Date := ⟨0, .inl rfl, by decide⟩

def isUndefined (d : Date) : Bool := d.serial = 0

def isClosing (d : Date) : Bool := !d.isUndefined && d.serial % 2 = 1

/-- `FromDaysSinceFirst`. -/
def fromDaysSinceFirst (days : Int) : Date :=
  if h : 0 ≤ days ∧ days ≤ lastDayIndex then
    ⟨(days.toNat + 1) * 2, .inr (by omega), by omega⟩
  else undefined

def daysSinceFirst (d : Date) : Int := if d.isUndefined then -1 else d.serial / 2 - 1

/-- `FromYmd`. -/
def fromYmd (year : Int) (month day : Nat) : Date :=
  if !Calendar.isRealDate year month day || year < 1753 || year > 9999 then undefined
  else fromDaysSinceFirst (Calendar.daysFromCivil year month day - epoch)

def closing (d : Date) : Date :=
  if h : d.serial = 0 then d
  else ⟨d.serial / 2 * 2 + 1, by have := d.known; omega, by have := d.bounded; omega⟩

def civil (d : Date) : Calendar.Civil := Calendar.civilFromDays (epoch + d.serial / 2 - 1)

/-- `ToInvariantString`. -/
def toInvariantString (d : Date) : Bytes :=
  if d.isUndefined then []
  else padded 4 d.civil.year.toNat ++ [Bytes.Ch.minus] ++ padded 2 d.civil.month ++
    [Bytes.Ch.minus] ++ padded 2 d.civil.day

end Date

abbrev millisecondsPerDay : Nat := 86400000

structure Time where
  milliseconds : Nat
  bounded : milliseconds < millisecondsPerDay
  deriving DecidableEq

theorem Time.zero_bounded : 0 < millisecondsPerDay := by decide

/-- `ToInvariantString`. -/
def Time.toInvariantString (t : Time) : Bytes :=
  padded 2 (t.milliseconds / 3600000) ++ Bytes.ascii ":" ++
    padded 2 (t.milliseconds / 60000 % 60) ++ Bytes.ascii ":" ++
    padded 2 (t.milliseconds / 1000 % 60) ++ [Bytes.Ch.dot] ++ padded 3 (t.milliseconds % 1000)

/-- Milliseconds since 1753-01-01; zero is the undefined instant. -/
structure DateTime where
  milliseconds : Nat
  bounded : milliseconds < 2 ^ 63
  deriving DecidableEq

namespace DateTime

theorem zero_bounded : 0 < 2 ^ 63 := by decide

def isUndefined (t : DateTime) : Bool := t.milliseconds = 0

/-- `DateTime::Date`; the day's number is taken as a 32 bit integer. -/
def date (t : DateTime) : Date :=
  if t.isUndefined then .undefined
  else .fromDaysSinceFirst (Int.bmod (t.milliseconds / millisecondsPerDay : Nat) (2 ^ 32))

def time (t : DateTime) : Time :=
  ⟨t.milliseconds % millisecondsPerDay, Nat.mod_lt _ (by decide)⟩

/-- `ToInvariantString`. -/
def toInvariantString (t : DateTime) : Bytes :=
  if t.isUndefined then []
  else t.date.toInvariantString ++ Bytes.ascii "T" ++ t.time.toInvariantString ++ Bytes.ascii "Z"

end DateTime
end Agiru
