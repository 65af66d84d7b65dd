import Agiru.CalcDate.Days

/-! The calendar as it is computed, in `int`s and `unsigned`s.

Within a million years nothing overflows, and what wraps around comes back: the conversions are those on whole
numbers, which are inverse and in the order of the days. The week of a date is the week of its Thursday. -/
namespace Agiru

variable {m : Nat} {y : Int}

namespace Calendar
open CalcDate (Fault Fits int)

namespace Machine

/-- `static_cast<int>` of an `unsigned`. -/
def signed (n : UInt32) : Int := n.toBitVec.toInt

/-- `era`: what is negative is moved down before it is divided. -/
def eraOf (n per : Int) : Except Fault Int := (·.tdiv per) <$> if 0 ≤ n then .ok n else int (n - (per - 1))

/-- `DaysFromCivil`. -/
def daysFromCivil (y : Int) (m d : UInt32) : Except Fault Int := do
  let y ← int (y - if m ≤ 2 then 1 else 0)
  let era ← eraOf y 400
  let past ← int (era * 400)
  let yoe := UInt32.ofInt (← int (y - past))
  let doy := (153 * (m + if 2 < m then -3 else 9) + 2) / 5 + d - 1
  let doe := yoe * 365 + yoe / 4 - yoe / 100 + doy
  let eras ← int (era * daysPerEra)
  let days ← int (eras + signed doe)
  int (days - eraToEpoch)

/-- `CivilFromDays`: the year, the month and the day. -/
def civilFromDays (days : Int) : Except Fault (Int × UInt32 × UInt32) := do
  let z ← int (days + eraToEpoch)
  let era ← eraOf z daysPerEra
  let past ← int (era * daysPerEra)
  let doe := UInt32.ofInt (← int (z - past))
  let yoe := (doe - doe / 1460 + doe / 36524 - doe / (146097 - 1)) / 365
  let years ← int (era * 400)
  let y ← int (signed yoe + years)
  let doy := doe - (365 * yoe + yoe / 4 - yoe / 100)
  let mp := (5 * doy + 2) / 153
  let d := doy - (153 * mp + 2) / 5 + 1
  let m := mp + if mp < 10 then 3 else -9
  let year ← int (y + if m ≤ 2 then 1 else 0)
  return (year, m, d)

end Machine

open Machine

theorem int_ok {n : Int} (h : Fits n) : int n = .ok n := if_pos h

theorem signed_small {n : UInt32} (h : n.toNat < 2 ^ 31) : signed n = n.toNat := by
  rw [signed, BitVec.toInt_eq_toNat_of_lt (by simpa using Nat.mul_lt_mul_of_pos_left h two_pos)]
  rfl

theorem toNat_ofInt {n : Int} (hlow : 0 ≤ n) (hhigh : n < 2 ^ 32) : (UInt32.ofInt n).toNat = n.toNat := by
  rw [UInt32.ofInt, UInt32.toNat_ofNat', Int.emod_eq_of_lt hlow hhigh, Nat.mod_eq_of_lt (by omega)]

theorem eraOf_eq {n per : Int} (hper : 0 < per) (h : 0 ≤ n ∨ Fits (n - (per - 1))) : eraOf n per =
    .ok (n / per) := by
  unfold eraOf
  by_cases hn : 0 ≤ n
  · rw [if_pos hn]
    exact congrArg Except.ok (Int.tdiv_eq_ediv_of_nonneg hn)
  · rw [if_neg hn, int_ok (h.resolve_left hn)]
    have hquotient : (per - 1 - n) / per = -(n / per) := by
      have hfloor := Int.emod_add_mul_ediv n per
      have hnonneg := Int.emod_nonneg n (Int.ne_of_gt hper)
      have hlt := Int.emod_lt_of_pos n hper
      rw [Int.ediv_eq_iff_of_pos hper]
      constructor <;> nlinarith
    have hdown : (n - (per - 1)).tdiv per = n / per := by
      rw [show n - (per - 1) = -(per - 1 - n) by omega, Int.neg_tdiv, Int.tdiv_eq_ediv_of_nonneg (by omega),
        hquotient, Int.neg_neg]
    exact congrArg Except.ok hdown

/-- A month counted from March, in `unsigned`s, and its day. -/
theorem toNat_dayOfYear {m d : UInt32} (hm : 1 ≤ m.toNat) (hm' : m.toNat ≤ 12) (hd : 1 ≤ d.toNat)
    (hd' : d.toNat ≤ 31) : ((153 * (m + if 2 < m then -3 else 9) + 2) / 5 + d - 1).toNat =
      (153 * (if m.toNat > 2 then m.toNat - 3 else m.toNat + 9) + 2) / 5 + d.toNat - 1 := by
  have hmarch : (m + if 2 < m then -3 else 9).toNat = if m.toNat > 2 then m.toNat - 3 else m.toNat + 9 := by
    simp only [UInt32.lt_iff_toNat_lt, show (2 : UInt32).toNat = 2 from rfl]
    split
    · rw [UInt32.toNat_add, show (-3 : UInt32).toNat = 4294967293 from rfl]
      omega
    · rw [UInt32.toNat_add, show (9 : UInt32).toNat = 9 from rfl]
      omega
  have hbound : (if m.toNat > 2 then m.toNat - 3 else m.toNat + 9) ≤ 11 := by
    split <;> omega
  generalize (m + if 2 < m then -3 else 9) = march at *
  generalize (if m.toNat > 2 then m.toNat - 3 else m.toNat + 9) = place at *
  have hnumerator : (153 * march + 2).toNat = 153 * place + 2 := by
    simp only [UInt32.toNat_add, UInt32.toNat_mul, UInt32.reduceToNat, hmarch]
    omega
  simp only [UInt32.toNat_sub, UInt32.toNat_add (_ / _), UInt32.toNat_div, UInt32.reduceToNat, hnumerator]
  omega

theorem daysFromCivil_machine {m d : UInt32} (hy : -1000001 ≤ y) (hy' : y ≤ 1000001)
    (h : isRealDate y m.toNat d.toNat = true) :
    Machine.daysFromCivil y m d = .ok (daysFromCivil y m.toNat d.toNat) := by
  obtain ⟨⟨hm, hm'⟩, hd, hlast⟩ := isRealDate_iff h
  have hdoy := toNat_dayOfYear hm hm' hd (hlast.trans (lastDayOfMonth_le y hm'))
  have hday : (153 * (if m.toNat > 2 then m.toNat - 3 else m.toNat + 9) + 2) / 5 + d.toNat - 1 ≤ 400 := by
    have := hlast.trans (lastDayOfMonth_le y hm')
    split <;> omega
  unfold Machine.daysFromCivil daysFromCivil
  dsimp only [daysPerEra, eraToEpoch]
  rw [← hdoy] at hday ⊢
  generalize (153 * (m + if 2 < m then -3 else 9) + 2) / 5 + d - 1 = doy at *
  have hyear : (y - if m ≤ 2 then 1 else 0) = if m.toNat ≤ 2 then y - 1 else y := by
    simp only [UInt32.le_iff_toNat_le, UInt32.reduceToNat]
    split <;> omega
  have hyears : -1000002 ≤ (if m.toNat ≤ 2 then y - 1 else y) ∧ (if m.toNat ≤ 2 then y - 1 else y) ≤ 1000001 := by
    split <;> omega
  rw [hyear]
  generalize (if m.toNat ≤ 2 then y - 1 else y) = year at *
  have hyoe : (UInt32.ofInt (year - year / 400 * 400)).toNat = (year - year / 400 * 400).toNat :=
    toNat_ofInt (by omega) (by omega)
  have hdoe : (UInt32.ofInt (year - year / 400 * 400) * 365 + UInt32.ofInt (year - year / 400 * 400) / 4 -
      UInt32.ofInt (year - year / 400 * 400) / 100 + doy).toNat =
      (year - year / 400 * 400).toNat * 365 + (year - year / 400 * 400).toNat / 4 -
        (year - year / 400 * 400).toNat / 100 + doy.toNat := by
    simp only [UInt32.toNat_sub, UInt32.toNat_add, UInt32.toNat_div, UInt32.toNat_mul, UInt32.reduceToNat, hyoe]
    omega
  rw [Fallible.bind_ok (int_ok (by unfold Fits; omega)), Fallible.bind_ok
      (eraOf_eq (by decide) (by unfold Fits; omega)),
    Fallible.bind_ok (int_ok (by unfold Fits; omega)), Fallible.bind_ok (int_ok (by unfold Fits; omega)),
    Fallible.bind_ok (int_ok (by unfold Fits; omega)), signed_small (by omega), hdoe,
    Fallible.bind_ok (int_ok (by unfold Fits; omega))]
  exact int_ok (by unfold Fits; omega)

theorem toNat_yearOfEra {doe : UInt32} (h : doe.toNat < 146097) :
    ((doe - doe / 1460 + doe / 36524 - doe / (146097 - 1)) / 365).toNat = yearOfEra doe.toNat := by
  have hcentury : (doe - doe / 1460 + doe / 36524).toNat = doe.toNat - doe.toNat / 1460 + doe.toNat / 36524 := by
    simp only [UInt32.toNat_sub, UInt32.toNat_add, UInt32.toNat_div, UInt32.reduceToNat]
    omega
  simp only [UInt32.toNat_sub _ (doe / _), UInt32.toNat_div, UInt32.reduceToNat, UInt32.reduceSub, hcentury, yearOfEra]
  omega

theorem toNat_dayOfYearOfEra {doe yoe : UInt32} (h : doe.toNat < 146097) (hyoe : yoe.toNat = yearOfEra doe.toNat) :
    (doe - (365 * yoe + yoe / 4 - yoe / 100)).toNat = dayOfYear doe.toNat := by
  obtain ⟨hyear, hfirst, -⟩ := yearOfEra_spec h
  have hfirst' : (365 * yoe + yoe / 4 - yoe / 100).toNat = firstOfYear (yearOfEra doe.toNat) := by
    simp only [UInt32.toNat_sub, UInt32.toNat_add, UInt32.toNat_mul, UInt32.toNat_div, UInt32.reduceToNat, hyoe,
      firstOfYear]
    omega
  rw [UInt32.toNat_sub, hfirst', dayOfYear]
  omega

theorem toNat_month (mp : UInt32) (h : mp.toNat < 12) :
    (mp + if mp < 10 then 3 else -9).toNat = if mp.toNat < 10 then mp.toNat + 3 else mp.toNat - 9 := by
  simp only [UInt32.lt_iff_toNat_lt, UInt32.reduceToNat]
  split
  · rw [UInt32.toNat_add, show (3 : UInt32).toNat = 3 from rfl]
    omega
  · rw [UInt32.toNat_add, show (-9 : UInt32).toNat = 4294967287 from rfl]
    omega

theorem toNat_day (doy : UInt32) (h : doy.toNat < 366) :
    ((5 * doy + 2) / 153).toNat = (5 * doy.toNat + 2) / 153 ∧
      (doy - (153 * ((5 * doy + 2) / 153) + 2) / 5 + 1).toNat =
        doy.toNat - (153 * ((5 * doy.toNat + 2) / 153) + 2) / 5 + 1 := by
  have hmp : ((5 * doy + 2) / 153).toNat = (5 * doy.toNat + 2) / 153 := by
    simp only [UInt32.toNat_add, UInt32.toNat_mul, UInt32.toNat_div, UInt32.reduceToNat]
    omega
  refine ⟨hmp, ?_⟩
  have hstart : ((153 * ((5 * doy + 2) / 153) + 2) / 5).toNat = (153 * ((5 * doy.toNat + 2) / 153) + 2) / 5 := by
    rw [UInt32.toNat_div, UInt32.toNat_add, UInt32.toNat_mul, hmp]
    simp only [UInt32.reduceToNat]
    omega
  rw [UInt32.toNat_add, UInt32.toNat_sub, hstart, UInt32.toNat_one]
  omega

/-- The days that have a date within a million years. -/
abbrev firstDay : Int := daysFromCivil (-1000000) 1 1

abbrev lastDay : Int := daysFromCivil 1000000 12 31

theorem civilFromDays_machine {days : Int} (hlow : firstDay ≤ days) (hhigh : days ≤ lastDay) :
    ∃ m d : UInt32, Machine.civilFromDays days = .ok ((civilFromDays days).year, m, d) ∧
      m.toNat = (civilFromDays days).month ∧ d.toNat = (civilFromDays days).day := by
  have hfirst : firstDay = -365962028 := by decide
  have hlast : lastDay = 364523337 := by decide
  obtain ⟨era, doe, hdoe, rfl⟩ := days_split days
  obtain ⟨hyoe, -, hdoy, -⟩ := yearOfEra_spec hdoe
  obtain ⟨hm, hm12, -⟩ := month_spec (dayOfYear doe) (Nat.lt_succ_of_le hdoy)
  change dayOfYear doe ≤ 365 at hdoy
  rw [civilFromDays_eq era hdoe]
  dsimp only [daysPerEra, eraToEpoch] at *
  unfold Machine.civilFromDays
  dsimp only [daysPerEra, eraToEpoch]
  have hera : (era * 146097 + doe - 719468 + 719468) / 146097 = era := by omega
  have hunsigned : (UInt32.ofInt (era * 146097 + doe - 719468 + 719468 - era * 146097)).toNat = doe := by
    rw [toNat_ofInt] <;> omega
  rw [Fallible.bind_ok (int_ok (by unfold Fits; omega)), Fallible.bind_ok
      (eraOf_eq (by decide) (by unfold Fits; omega)),
    hera, Fallible.bind_ok (int_ok (by unfold Fits; omega)), Fallible.bind_ok (int_ok (by unfold Fits; omega))]
  generalize UInt32.ofInt _ = n at *
  subst hunsigned
  have hyear := toNat_yearOfEra hdoe
  generalize (n - n / 1460 + n / 36524 - n / (146097 - 1)) / 365 = yoe at *
  have hday := toNat_dayOfYearOfEra hdoe hyear
  generalize n - (365 * yoe + yoe / 4 - yoe / 100) = doy at *
  rw [← hday] at hdoy hm hm12 ⊢
  obtain ⟨hmp, hd⟩ := toNat_day doy (by omega)
  have hmonth := toNat_month ((5 * doy + 2) / 153) (by omega)
  rw [hmp] at hmonth
  generalize (5 * doy + 2) / 153 + (if (5 * doy + 2) / 153 < 10 then 3 else -9) = m at *
  generalize doy - (153 * ((5 * doy + 2) / 153) + 2) / 5 + 1 = d at *
  rw [← hmonth] at hm hm12 ⊢
  have hcivil : ((yoe.toNat : Int) + era * 400 + if m ≤ 2 then 1 else 0) =
      if m.toNat ≤ 2 then (yearOfEra n.toNat : Int) + era * 400 + 1 else yearOfEra n.toNat + era * 400 := by
    simp only [UInt32.le_iff_toNat_le, UInt32.reduceToNat, hyear]
    split <;> omega
  have hfits : Fits ((yoe.toNat : Int) + era * 400 + if m ≤ 2 then 1 else 0) := by
    unfold Fits
    split <;> omega
  rw [Fallible.bind_ok (int_ok (by unfold Fits; omega)), signed_small (by omega),
    Fallible.bind_ok (int_ok (by unfold Fits; omega)), Fallible.bind_ok (int_ok hfits), hcivil]
  exact ⟨m, d, rfl, rfl, hd⟩

/-! ### The dates in their order -/

/-- A date is the one of its day. -/
theorem civilFromDays_days {d : Nat} (h : isRealDate y m d = true) :
    civilFromDays (daysFromCivil y m d) = ⟨y, m, d⟩ := by
  have hback := daysFromCivil_civil (daysFromCivil y m d)
  have hreal := isRealDate_civil (daysFromCivil y m d)
  rcases hcivil : civilFromDays (daysFromCivil y m d) with ⟨year, month, day⟩
  rw [hcivil] at hback hreal
  dsimp only at hback hreal
  have hbefore := mt (daysFromCivil_lt h hreal) (by rw [hback]; exact lt_irrefl _)
  have hbehind := mt (daysFromCivil_lt hreal h) (by rw [hback]; exact lt_irrefl _)
  rw [Civil.mk.injEq]
  omega

/-- The date behind a date. -/
def nextDate (y : Int) (m d : UInt32) : Int × UInt32 × UInt32 :=
  if d.toNat < lastDayOfMonth y m.toNat then (y, m, d + 1)
  else if m = 12 then (y + 1, 1, 1)
  else (y, m + 1, 1)

theorem newYear_real (y : Int) : isRealDate y 1 1 = true :=
  isRealDate_of le_rfl (by decide) le_rfl (le_trans (by decide) (lastDayOfMonth_ge y le_rfl (by decide)))

theorem nextDate_spec {y' : Int} {m d m' d' : UInt32} (h : isRealDate y m.toNat d.toNat = true)
    (hnext : nextDate y m d = (y', m', d')) :
    isRealDate y' m'.toNat d'.toNat = true ∧ y ≤ y' ∧ y' ≤ y + 1 ∧
      daysFromCivil y' m'.toNat d'.toNat = daysFromCivil y m.toNat d.toNat + 1 := by
  obtain ⟨⟨hm, hm'⟩, hd, hlast⟩ := isRealDate_iff h
  have hlast31 := lastDayOfMonth_le y hm'
  have hone : (1 : UInt32).toNat = 1 := rfl
  have hbehind := dayOf_next (y := y) hm hm'
  unfold dayOf at hbehind
  unfold nextDate at hnext
  split at hnext
  · next hinside =>
    cases hnext
    have hday : (d + 1).toNat = d.toNat + 1 := by
      rw [UInt32.toNat_add, hone]
      omega
    rw [hday]
    refine ⟨isRealDate_of hm hm' (by omega) hinside, le_refl y, by omega, ?_⟩
    rw [daysFromCivil_marches, daysFromCivil_marches]
    unfold dayInYear
    omega
  · next hover =>
    have hend : d.toNat = lastDayOfMonth y m.toNat := by omega
    rw [hend]
    split at hnext
    · next htwelve =>
      cases hnext
      have hdecember : m.toNat = 12 := congrArg UInt32.toNat htwelve
      rw [if_pos hdecember, if_pos hdecember] at hbehind
      rw [hone]
      exact ⟨newYear_real (y + 1), by omega, le_rfl, by omega⟩
    · next hother =>
      cases hnext
      have htwelve : m.toNat ≠ 12 := fun heq => hother (UInt32.toNat_inj.mp heq)
      have hmonth : (m + 1).toNat = m.toNat + 1 := by
        rw [UInt32.toNat_add, hone]
        omega
      rw [if_neg htwelve, if_neg htwelve] at hbehind
      rw [hmonth, hone]
      refine ⟨isRealDate_of (by omega) (by omega) le_rfl ?_, le_refl y, by omega, by omega⟩
      exact le_trans (by decide) (lastDayOfMonth_ge y (by omega) (by omega))

theorem date_le {y' : Int} {m' d d' : Nat} (h : isRealDate y m d = true) (h' : isRealDate y' m' d' = true)
    (hle : y < y' ∨ y = y' ∧ (m < m' ∨ m = m' ∧ d ≤ d')) : daysFromCivil y m d ≤ daysFromCivil y' m' d' := by
  by_cases hsame : y = y' ∧ m = m' ∧ d = d'
  · obtain ⟨rfl, rfl, rfl⟩ := hsame
    exact le_rfl
  · exact le_of_lt (daysFromCivil_lt h h' (by omega))

theorem days_within {d : Nat} (hy : -1000000 ≤ y) (hy' : y ≤ 1000000) (h : isRealDate y m d = true) :
    firstDay ≤ daysFromCivil y m d ∧ daysFromCivil y m d ≤ lastDay := by
  obtain ⟨⟨hm, hm'⟩, hd, hlast⟩ := isRealDate_iff h
  have hlast31 := lastDayOfMonth_le y hm'
  exact ⟨date_le (newYear_real _) h (by omega), date_le h (by decide) (by omega)⟩

theorem year_within {days : Int} (hlow : firstDay ≤ days) (hhigh : days ≤ lastDay) :
    -1000000 ≤ (civilFromDays days).year ∧ (civilFromDays days).year ≤ 1000000 := by
  have hreal := isRealDate_civil days
  have hback := daysFromCivil_civil days
  constructor
  · by_contra hearly
    have hbefore : _ < firstDay := daysFromCivil_lt hreal (newYear_real (-1000000)) (.inl (by omega))
    omega
  · by_contra hlate
    have hbehind : lastDay < _ :=
      daysFromCivil_lt (show isRealDate 1000000 12 31 = true by decide) hreal (.inl (by omega))
    omega

/-- A day is in the year of its date. -/
theorem year_days (days : Int) :
    daysFromCivil (civilFromDays days).year 1 1 ≤ days ∧ days < daysFromCivil ((civilFromDays days).year + 1) 1
        1 := by
  have hreal := isRealDate_civil days
  have hback := daysFromCivil_civil days
  have hparts := isRealDate_iff hreal
  generalize civilFromDays days = date at *
  rw [← hback]
  exact ⟨date_le (newYear_real _) hreal (by omega), daysFromCivil_lt hreal (newYear_real _) (.inl (lt_add_one _))⟩

end Calendar

namespace Date
open Calendar
variable (d : Date)

/-- `Days`. -/
def days : Int := epoch + d.serial / 2 - 1

/-- `ThursdayOfWeek`. -/
def thursdayOfWeek : Int := d.days + (4 - d.dayOfWeek)

/-- `WeekYear`. -/
def weekYear : Int := if d.isUndefined then 0 else (civilFromDays d.thursdayOfWeek).year

/-- `WeekNo`. -/
def weekNo : Int :=
  if d.isUndefined then 0 else (d.thursdayOfWeek - daysFromCivil d.weekYear 1 1).tdiv 7 + 1

/-- A day is the Thursday among the first seven of a year. -/
def FirstThursday (year thursday : Int) : Prop :=
  isoWeekday (thursday - epoch) = 4 ∧ daysFromCivil year 1 1 ≤ thursday ∧ thursday < daysFromCivil year 1 1 + 7

variable {d}

theorem days_eq (h : d.isUndefined = false) : d.days = epoch + d.daysSinceFirst := by
  rw [days, daysSinceFirst, h, if_neg Bool.false_ne_true]
  omega

/-- A week is counted from the one of its year's first Thursday, and is not one of the next year. -/
theorem week_of_thursday (h : d.isUndefined = false) :
    1 ≤ d.weekNo ∧ ∃ first next, FirstThursday d.weekYear first ∧ FirstThursday (d.weekYear + 1) next ∧
      first - 3 + 7 * (d.weekNo - 1) ≤ d.days ∧ d.days < first - 3 + 7 * d.weekNo ∧ d.days < next - 3 := by
  have hweekday := dayOfWeek_eq h
  have hdays := days_eq h
  have hyear : d.weekYear = (civilFromDays d.thursdayOfWeek).year := by
    rw [weekYear, h, if_neg Bool.false_ne_true]
  obtain ⟨hopens, hends⟩ := year_days d.thursdayOfWeek
  rw [← hyear] at hopens hends
  have hno : d.weekNo = (d.thursdayOfWeek - daysFromCivil d.weekYear 1 1) / 7 + 1 := by
    rw [weekNo, h, if_neg Bool.false_ne_true, Int.tdiv_eq_ediv_of_nonneg (by omega)]
  have hthursday : d.thursdayOfWeek = d.days + (4 - d.dayOfWeek) := rfl
  generalize d.weekYear = year at *
  generalize d.thursdayOfWeek = thursday at *
  unfold isoWeekday at hweekday
  unfold FirstThursday isoWeekday
  refine ⟨by omega, thursday - 7 * (d.weekNo - 1), daysFromCivil (year + 1) 1 1 +
    (3 - (daysFromCivil (year + 1) 1 1 - epoch)) % 7, ⟨by omega, by omega, by omega⟩,
    ⟨by omega, by omega, by omega⟩, by omega, by omega, by omega⟩

theorem fromYmd_defined {n : Nat} (h : isRealDate y m n = true) (hlow : 1753 ≤ y) (hhigh : y ≤ 9999) :
    (fromYmd y m n).isUndefined = false ∧ (fromYmd y m n).daysSinceFirst = dayOf y m n := by
  obtain ⟨hfirst, hlast⟩ := (dayOf_range h).mpr ⟨hlow, hhigh⟩
  rw [fromYmd_real h]
  exact ⟨fromDays_defined hfirst hlast, daysSinceFirst_fromDays hfirst hlast⟩

/-- A date gives back what it was made of. -/
theorem fromYmd_parts {n : Nat} (h : isRealDate y m n = true) (hlow : 1753 ≤ y) (hhigh : y ≤ 9999) :
    (fromYmd y m n).year = y ∧ (fromYmd y m n).month = m ∧ (fromYmd y m n).day = n := by
  obtain ⟨hdefined, hdays⟩ := fromYmd_defined h hlow hhigh
  have hcivil : (fromYmd y m n).civil = ⟨y, m, n⟩ := by
    have hsum : epoch + dayOf y m n = daysFromCivil y m n := by
      unfold dayOf
      omega
    rw [← civilFromDays_days h, ← hsum, ← hdays, ← days_eq hdefined]
    rfl
  simp only [year, month, day, hdefined, Bool.false_eq_true, if_false, hcivil, and_self]

theorem fromYmd_lt {y' : Int} {m' n n' : Nat} (h : isRealDate y m n = true) (h' : isRealDate y' m' n' = true)
    (hlow : 1753 ≤ y) (hhigh : y' ≤ 9999) (hlt : y < y' ∨ y = y' ∧ (m < m' ∨ m = m' ∧ n < n')) :
    (fromYmd y m n).serial < (fromYmd y' m' n').serial := by
  have hdays := dayOf_lt h h' hlt
  have hfirst := (dayOf_range h).mpr ⟨hlow, by omega⟩
  have hlast := (dayOf_range h').mpr ⟨by omega, hhigh⟩
  rw [fromYmd_real h, fromYmd_real h', fromDaysSinceFirst, fromDaysSinceFirst, dif_pos hfirst, dif_pos hlast]
  dsimp only
  omega

theorem dayOfWeek_next (h : d.isUndefined = false)
    (hnext : (fromDaysSinceFirst (d.daysSinceFirst + 1)).isUndefined = false) :
    (fromDaysSinceFirst (d.daysSinceFirst + 1)).dayOfWeek = d.dayOfWeek % 7 + 1 := by
  have hinside : 0 ≤ d.daysSinceFirst + 1 ∧ d.daysSinceFirst + 1 ≤ lastDayIndex := by
    by_contra hout
    rw [fromDays_outside (by omega)] at hnext
    cases hnext
  rw [dayOfWeek_eq h, dayOfWeek_eq hnext, daysSinceFirst_fromDays hinside.1 hinside.2]
  unfold isoWeekday
  omega

end Date

namespace Calendar

/-- **The conversions of the calendar are inverse, and in the order of the days**, with nothing overflowing within
a million years; so dates are in the order of year, month and day, give these back, are of the weekday behind that
of the day before, and in the week of their Thursday. -/
theorem civil_conversions :
    (∀ (y : Int) (m d : UInt32), -1000000 ≤ y → y ≤ 1000000 → isRealDate y m.toNat d.toNat = true →
      Machine.daysFromCivil y m d = .ok (daysFromCivil y m.toNat d.toNat) ∧
      Machine.civilFromDays (daysFromCivil y m.toNat d.toNat) = .ok (y, m, d) ∧
      ∀ (y' : Int) (m' d' : UInt32), nextDate y m d = (y', m', d') →
        Machine.daysFromCivil y' m' d' = .ok (daysFromCivil y m.toNat d.toNat + 1)) ∧
    (∀ first last days : Int, Machine.daysFromCivil (-1000000) 1 1 = .ok first →
      Machine.daysFromCivil 1000000 12 31 = .ok last → first ≤ days → days ≤ last →
      ∃ (y : Int) (m d : UInt32), Machine.civilFromDays days = .ok (y, m, d) ∧
        civilFromDays days = ⟨y, m.toNat, d.toNat⟩ ∧ Machine.daysFromCivil y m d = .ok days) ∧
    (∀ (y y' : Int) (m m' n n' : Nat), isRealDate y m n = true → isRealDate y' m' n' = true → 1753 ≤ y →
        y' ≤ 9999 →
      (y < y' ∨ y = y' ∧ (m < m' ∨ m = m' ∧ n < n')) →
      (Date.fromYmd y m n).serial < (Date.fromYmd y' m' n').serial) ∧
    (∀ (y : Int) (m n : Nat), isRealDate y m n = true → 1753 ≤ y → y ≤ 9999 →
      (Date.fromYmd y m n).year = y ∧ (Date.fromYmd y m n).month = m ∧ (Date.fromYmd y m n).day = n) ∧
    (∀ d next : Date, d.isUndefined = false → next = Date.fromDaysSinceFirst (d.daysSinceFirst + 1) →
      next.isUndefined = false → next.dayOfWeek = d.dayOfWeek % 7 + 1) ∧
    ∀ d : Date, d.isUndefined = false → 1 ≤ d.weekNo ∧
      ∃ first next, Date.FirstThursday d.weekYear first ∧ Date.FirstThursday (d.weekYear + 1) next ∧
        first - 3 + 7 * (d.weekNo - 1) ≤ d.days ∧ d.days < first - 3 + 7 * d.weekNo ∧ d.days < next - 3 := by
  have hopens : Machine.daysFromCivil (-1000000) 1 1 = .ok firstDay :=
    daysFromCivil_machine (by decide) (by decide) (by decide)
  have hcloses : Machine.daysFromCivil 1000000 12 31 = .ok lastDay :=
    daysFromCivil_machine (by decide) (by decide) (by decide)
  refine ⟨fun y m d hy hy' h => ?_, fun first last days hfirst hlast hlow hhigh => ?_,
    fun y y' m m' n n' h h' hlow hhigh hlt => Date.fromYmd_lt h h' hlow hhigh hlt,
    fun y m n h hlow hhigh => Date.fromYmd_parts h hlow hhigh, fun d next h heq hnext => ?_,
    fun d h => Date.week_of_thursday h⟩
  · refine ⟨daysFromCivil_machine (by omega) (by omega) h, ?_, fun y' m' d' hnext => ?_⟩
    · have hcivil := civilFromDays_days h
      obtain ⟨hlow, hhigh⟩ := days_within hy hy' h
      obtain ⟨month, day, hmachine, hmonth, hday⟩ := civilFromDays_machine hlow hhigh
      rw [hcivil] at hmachine hmonth hday
      rw [hmachine, UInt32.toNat_inj.mp hmonth, UInt32.toNat_inj.mp hday]
    · obtain ⟨hreal, hlow, hhigh, hdays⟩ := nextDate_spec h hnext
      rw [daysFromCivil_machine (by omega) (by omega) hreal, hdays]
  · cases hopens.symm.trans hfirst
    cases hcloses.symm.trans hlast
    obtain ⟨m, d, hmachine, hm, hd⟩ := civilFromDays_machine hlow hhigh
    obtain ⟨hyear, hyear'⟩ := year_within hlow hhigh
    have hreal := isRealDate_civil days
    have hback := daysFromCivil_civil days
    rw [← hm, ← hd] at hreal hback
    refine ⟨_, m, d, hmachine, ?_, ?_⟩
    · rw [hm, hd]
    · rw [daysFromCivil_machine (by omega) (by omega) hreal, hback]
  · subst heq
    exact Date.dayOfWeek_next h hnext

end Calendar
end Agiru
