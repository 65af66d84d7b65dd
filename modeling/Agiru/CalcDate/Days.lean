import Agiru.Storage.DateFormula
import Agiru.Storage.DayOrder

/-! `CalcDate`, term by term.

A term computes in `int`s and hands what comes out of them to a calendar that has dates for the days from
1753-01-01 to 9999-12-31 alone; outside them stands the undefined date, which has a day number, a weekday, a year
and a month of its own. A date of the calendar is in the range with its day's number (`fromYmd_real`); behind a
month's last day is the first of the next month. -/
namespace Agiru

variable {y : Int} {m : Nat}

namespace Date

/-- `Year`. -/
def year (d : Date) : Int := if d.isUndefined then 0 else d.civil.year

/-- `Month`. -/
def month (d : Date) : Nat := if d.isUndefined then 0 else d.civil.month

/-- `Day`. -/
def day (d : Date) : Nat := if d.isUndefined then 0 else d.civil.day

/-- `DayOfWeek`, with a remainder that has the sign of the days. -/
def dayOfWeek (d : Date) : Int :=
  if d.isUndefined then 0 else ((epoch + d.serial / 2 - 1).tmod 7 + 7 + 3).tmod 7 + 1

end Date

namespace CalcDate
open Storage

/-- How the computation ends without a date: in a signed overflow, or in the `std::out_of_range` of a month's
length. -/
inductive Fault
  | overflow
  | outOfRange
  deriving Repr, DecidableEq

/-- A number of an `int`. -/
def Fits (n : Int) : Prop := -2 ^ 31 ≤ n ∧ n < 2 ^ 31

instance (n : Int) : Decidable (Fits n) := inferInstanceAs (Decidable (_ ∧ _))

/-- What an `int` computation leaves. -/
def int (n : Int) : Except Fault Int := if Fits n then .ok n else .error .overflow

/-- `Boundary`. -/
def boundary (d : Date) (unit : DateUnit) (first : Bool) : Date :=
  match unit with
  | .day => d
  | .week => Date.fromDaysSinceFirst (d.daysSinceFirst + if first then 1 - d.dayOfWeek else 7 - d.dayOfWeek)
  | .month =>
    if first then Date.fromYmd d.year d.month 1
    else
      let nextMonth := if d.month = 12 then 1 else d.month + 1
      let nextYear := if d.month = 12 then d.year + 1 else d.year
      Date.fromDaysSinceFirst ((Date.fromYmd nextYear nextMonth 1).daysSinceFirst - 1)
  | .quarter =>
    let quarter := (d.month - 1) / 3
    if first then Date.fromYmd d.year (quarter * 3 + 1) 1
    else
      let endMonth := quarter * 3 + 3
      let nextMonth := if endMonth = 12 then 1 else endMonth + 1
      let nextYear := if endMonth = 12 then d.year + 1 else d.year
      Date.fromDaysSinceFirst ((Date.fromYmd nextYear nextMonth 1).daysSinceFirst - 1)
  | .year => if first then Date.fromYmd d.year 1 1 else Date.fromYmd d.year 12 31

/-- `LastDayOfMonth` of a month that came out of a division: a month below zero is no place of the table. -/
def lengthOf (year month : Int) : Except Fault Nat :=
  if month < 0 then .error .outOfRange else .ok (Calendar.lastDayOfMonth year month.toNat)

/-- `AddMonths`. -/
def addMonths (d : Date) (months : Int) : Except Fault Date := do
  let total ← int (d.year * 12 + d.month - 1 + months)
  let year := total.tdiv 12
  let month := total.tmod 12 + 1
  let length ← lengthOf year month
  return Date.fromYmd year month.toNat (if d.day < length then d.day else length)

/-- `DayOfMonth`. -/
def dayOfMonth (d : Date) (day : Nat) : Date :=
  if day < 1 then d
  else
    let length := Calendar.lastDayOfMonth d.year d.month
    Date.fromYmd d.year d.month (if day < length then day else length)

/-- A whole week, where the remainder of one is nothing. -/
def orWeek (remainder : Int) : Int := if remainder = 0 then 7 else remainder

/-- `Weekday`; the remainders have the sign of what is divided. -/
def weekday (d : Date) (target : Nat) (backwards : Bool) : Date :=
  if target < 1 ∨ 7 < target then d
  else
    let today := d.dayOfWeek
    let shift :=
      if backwards then -orWeek ((today - target).tmod 7) else orWeek ((target - today).tmod 7)
    Date.fromDaysSinceFirst (d.daysSinceFirst + shift)

/-- The Monday of the first week of a date's year. -/
def firstMonday (d : Date) : Date :=
  let january4 := Date.fromYmd d.year 1 4
  Date.fromDaysSinceFirst (january4.daysSinceFirst - (january4.dayOfWeek - 1))

/-- A term's number with its sign. -/
def signed (term : Term) : Int := if term.negative then -term.count else term.count

/-- One turn of `CalcDate`. -/
def step (d : Date) (term : Term) : Except Fault Date := do
  match term.kind with
  | .period => return boundary d term.unit term.negative
  | .weekday => return weekday d term.count term.negative
  | .week =>
    let weeks ← int (((term.count : Int) - 1) * 7)
    let days ← int ((firstMonday d).daysSinceFirst + weeks)
    return Date.fromDaysSinceFirst days
  | .dayOfMonth => return dayOfMonth d term.count
  | .amount =>
    match term.unit with
    | .day => return Date.fromDaysSinceFirst (← int (d.daysSinceFirst + signed term))
    | .week =>
      let days ← int (signed term * 7)
      return Date.fromDaysSinceFirst (← int (d.daysSinceFirst + days))
    | .month => addMonths d (signed term)
    | .quarter => addMonths d (← int (signed term * 3))
    | .year => addMonths d (← int (signed term * 12))

/-- `Counted`, of every term, as the formula is read. -/
def counted (terms : List Term) : Except Fault Unit := terms.forM fun term => (fun _ => ()) <$> int term.count

/-- `CalcDate`. -/
def calcDate (terms : List Term) (from_ : Date) : Except Fault Date :=
  if from_.isUndefined then .ok from_ else terms.foldlM step from_

end CalcDate

namespace Calendar

/-- The day of a date, counted from 1753-01-01. -/
def dayOf (y : Int) (m d : Nat) : Int := daysFromCivil y m d - epoch

/-- The month behind a month begins behind its last day. -/
theorem dayOf_next (hlow : 1 ≤ m) (hhigh : m ≤ 12) :
    dayOf (if m = 12 then y + 1 else y) (if m = 12 then 1 else m + 1) 1 - 1 = dayOf y m (lastDayOfMonth y m) := by
  unfold dayOf
  rw [daysFromCivil_marches, daysFromCivil_marches]
  by_cases hfeb : m = 2
  · subst hfeb
    have hmarch : dayInYear 3 1 = 0 := rfl
    have hday : ∀ n, dayInYear 2 n = 337 + n - 1 := fun _ => rfl
    have hlast : lastDayOfMonth y 2 = if isLeapYear y then 29 else 28 := by
      unfold lastDayOfMonth
      cases isLeapYear y <;> rfl
    simp only [Nat.reduceEqDiff, if_false, Nat.reduceAdd, Nat.reduceLeDiff, Nat.le_refl, if_true,
      hmarch, hday, hlast, marches]
    cases hleap : isLeapYear y with
    | false =>
      simp only [isLeapYear, Bool.or_eq_false_iff, Bool.and_eq_false_iff, decide_eq_false_iff_not] at hleap
      simp only [Bool.false_eq_true, if_false]
      omega
    | true =>
      simp only [isLeapYear, Bool.or_eq_true, Bool.and_eq_true, decide_eq_true_eq] at hleap
      simp only [if_true]
      omega
  · have hlast : lastDayOfMonth y m = [0, 31, 28, 31, 30, 31, 30, 31, 31, 30, 31, 30, 31].getD m 0 := by
      unfold lastDayOfMonth
      rw [if_neg (by simp [hfeb])]
    rw [hlast]
    interval_cases m <;> simp [dayInYear] at * <;> omega

theorem isRealDate_of {d : Nat} (hm : 1 ≤ m) (hm' : m ≤ 12) (hd : 1 ≤ d) (hd' : d ≤ lastDayOfMonth y m) :
    isRealDate y m d = true := by
  simp [isRealDate, hm, hm', hd, hd']

theorem lastDayOfMonth_ge (y : Int) (hm : 1 ≤ m) (hm' : m ≤ 12) : 28 ≤ lastDayOfMonth y m := by
  unfold lastDayOfMonth
  split
  · decide
  · interval_cases m <;> decide

theorem dayOf_lt {y' : Int} {m' d d' : Nat} (h : isRealDate y m d = true) (h' : isRealDate y' m' d' = true)
    (hlt : y < y' ∨ y = y' ∧ (m < m' ∨ m = m' ∧ d < d')) : dayOf y m d < dayOf y' m' d' := by
  have := daysFromCivil_lt h h' hlt
  unfold dayOf
  omega

/-- A date's day is in the range exactly if its year is. -/
theorem dayOf_range {d : Nat} (h : isRealDate y m d = true) :
    (0 ≤ dayOf y m d ∧ dayOf y m d ≤ lastDayIndex) ↔ 1753 ≤ y ∧ y ≤ 9999 := by
  have hfirst : dayOf 1753 1 1 = 0 := by decide
  have hlast : dayOf 9999 12 31 = lastDayIndex := by decide
  have hopens : isRealDate 1753 1 1 = true := by decide
  have hcloses : isRealDate 9999 12 31 = true := by decide
  obtain ⟨⟨hm1, hm12⟩, hd1, hd⟩ := isRealDate_iff h
  have hd31 := lastDayOfMonth_le y hm12
  constructor
  · intro hrange
    constructor
    · by_contra hearly
      have := dayOf_lt h hopens (.inl (by omega))
      omega
    · by_contra hlate
      have := dayOf_lt hcloses h (.inl (by omega))
      omega
  · intro hyear
    constructor
    · by_cases heq : y = 1753 ∧ m = 1 ∧ d = 1
      · obtain ⟨rfl, rfl, rfl⟩ := heq
        decide
      · have := dayOf_lt hopens h (by omega)
        omega
    · by_cases heq : y = 9999 ∧ m = 12 ∧ d = 31
      · obtain ⟨rfl, rfl, rfl⟩ := heq
        decide
      · have := dayOf_lt h hcloses (by omega)
        omega

end Calendar

namespace Date

variable {d : Date}

theorem undefined_iff : d.isUndefined = true ↔ d = undefined := by
  rw [isUndefined, decide_eq_true_iff]
  exact ⟨fun h => by obtain ⟨serial, known, bounded⟩ := d; subst h; rfl, fun h => by rw [h]; rfl⟩

theorem daysSinceFirst_bounds (h : d.isUndefined = false) : 0 ≤ d.daysSinceFirst ∧
    d.daysSinceFirst ≤ lastDayIndex := by
  have hserial : d.serial ≠ 0 := by simpa [isUndefined] using h
  have hknown := d.known
  have hbounded := d.bounded
  rw [daysSinceFirst, h, if_neg Bool.false_ne_true]
  omega

theorem fromDays_defined {k : Int} (hlow : 0 ≤ k) (hhigh : k ≤ lastDayIndex) :
    (fromDaysSinceFirst k).isUndefined = false := by
  rw [fromDaysSinceFirst, dif_pos ⟨hlow, hhigh⟩]
  simp [isUndefined]

theorem daysSinceFirst_fromDays {k : Int} (hlow : 0 ≤ k) (hhigh : k ≤ lastDayIndex) :
    (fromDaysSinceFirst k).daysSinceFirst = k := by
  rw [daysSinceFirst, fromDays_defined hlow hhigh, if_neg Bool.false_ne_true, fromDaysSinceFirst, dif_pos ⟨hlow, hhigh⟩]
  dsimp only
  omega

theorem fromDays_outside {k : Int} (h : k < 0 ∨ (lastDayIndex : Int) < k) : fromDaysSinceFirst k = undefined := by
  rw [fromDaysSinceFirst, dif_neg (by omega)]

/-- No two days of the range have a date in common, and none has the undefined one. -/
theorem fromDays_inj {j k : Int} (hlow : 0 ≤ k) (hhigh : k ≤ lastDayIndex)
    (h : fromDaysSinceFirst j = fromDaysSinceFirst k) : j = k := by
  have hdefined := fromDays_defined hlow hhigh
  by_cases hj : 0 ≤ j ∧ j ≤ lastDayIndex
  · rw [← daysSinceFirst_fromDays hj.1 hj.2, h, daysSinceFirst_fromDays hlow hhigh]
  · rw [← h, fromDays_outside (by omega)] at hdefined
    cases hdefined

/-- The weekday of a day, counted from 1753-01-01, which is a Monday. -/
def isoWeekday (days : Int) : Int := days % 7 + 1

theorem dayOfWeek_eq (h : d.isUndefined = false) : d.dayOfWeek = isoWeekday d.daysSinceFirst := by
  have hserial : (d.serial : Int) / 2 - 1 = d.daysSinceFirst := by
    rw [daysSinceFirst, h, if_neg Bool.false_ne_true]
  have hdays : epoch + d.serial / 2 - 1 = epoch + d.daysSinceFirst := by omega
  rw [dayOfWeek, h, if_neg Bool.false_ne_true, hdays, isoWeekday]
  generalize d.daysSinceFirst = days
  -- the remainder is the least one, or a week below it
  obtain ⟨week, hweek, hmod⟩ : ∃ week : Int, (week = 0 ∨ week = 7) ∧ (epoch + days).tmod 7 =
      (epoch + days) % 7 - week :=
    ⟨_, by split <;> simp, Int.tmod_eq_emod⟩
  rw [hmod, Int.tmod_eq_emod_of_nonneg (by omega)]
  unfold epoch
  rcases hweek with rfl | rfl <;> omega

/-- A date that there is, in the range or the undefined one. -/
theorem fromYmd_real {n : Nat} (h : Calendar.isRealDate y m n = true) :
    fromYmd y m n = fromDaysSinceFirst (Calendar.dayOf y m n) := by
  have hrange := Calendar.dayOf_range h
  rw [fromYmd, h]
  split
  · next hyear =>
    simp only [Bool.not_true, Bool.false_or, Bool.or_eq_true, decide_eq_true_eq] at hyear
    rw [fromDays_outside (by omega)]
  · rfl

theorem fromYmd_unreal {n : Nat} (h : Calendar.isRealDate y m n = false) : fromYmd y m n = undefined := by
  rw [fromYmd, h]
  rfl

/-- The parts of a date of the range. -/
theorem civil_real (h : d.isUndefined = false) : Calendar.isRealDate d.year d.month d.day = true ∧
    1753 ≤ d.year ∧ d.year ≤ 9999 ∧ Calendar.dayOf d.year d.month d.day = d.daysSinceFirst := by
  have hserial : d.serial ≠ 0 := by simpa [isUndefined] using h
  have hknown := d.known
  have hbounded := d.bounded
  simp only [year, month, day, h, Bool.false_eq_true, if_false, daysSinceFirst, Calendar.dayOf]
  have hlow : epoch ≤ epoch + d.serial / 2 - 1 := by omega
  have hyears := Calendar.civil_year hlow (by omega)
  refine ⟨Calendar.isRealDate_civil _, hyears.1, hyears.2, ?_⟩
  rw [civil, Calendar.daysFromCivil_civil]
  omega

end Date

end Agiru
