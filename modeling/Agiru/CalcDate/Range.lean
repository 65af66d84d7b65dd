import Agiru.CalcDate.Weekdays

/-! Formulas and the range.

Each term moves a date to a day of a calendar without an end, and a day outside the range leaves the undefined
date, for good. The code does so exactly where its `int`s hold what they compute, where the undefined date is left
alone by the terms behind it, and where a month's end is not looked for behind the last year
(`calcDate_right_iff`). -/
namespace Agiru.CalcDate
open Storage Date Calendar
open Fallible

/-! ### The calendar without an end -/

/-- The Monday of a year's first week, which has the fourth of January. -/
def weekOne (y : Int) : Int := dayOf y 1 4 - (isoWeekday (dayOf y 1 4) - 1)

/-- A date some months on, on the same day or the month's last. -/
def monthsOn (d : Date) (months : Int) : Int :=
  let total := d.year * 12 + (d.month - 1) + months
  let month := (total % 12).toNat + 1
  dayOf (total / 12) month (min d.day (lastDayOfMonth (total / 12) month))

/-- The day that a term moves a date to; it leaves the date alone for the day itself, for no weekday, and for no
day. -/
def reached (d : Date) (term : Term) : Option Int :=
  match term.kind with
  | .period =>
    let quarter := (d.month - 1) / 3 * 3 + 1
    match term.unit with
    | .day => none
    | .week =>
      some (d.daysSinceFirst + if term.negative then 1 - isoWeekday d.daysSinceFirst else 7 - isoWeekday
          d.daysSinceFirst)
    | .month => some (dayOf d.year d.month (if term.negative then 1 else lastDayOfMonth d.year d.month))
    | .quarter =>
      some (if term.negative then dayOf d.year quarter 1
        else dayOf d.year (quarter + 2) (lastDayOfMonth d.year (quarter + 2)))
    | .year => some (if term.negative then dayOf d.year 1 1 else dayOf d.year 12 31)
  | .weekday =>
    let today := isoWeekday d.daysSinceFirst
    if term.count < 1 ∨ 7 < term.count then none
    else if term.negative then
      some (d.daysSinceFirst - if term.count < today then today - term.count else today - term.count + 7)
    else some (d.daysSinceFirst + if today < term.count then term.count - today else term.count - today + 7)
  | .week => some (weekOne d.year + (term.count - 1) * 7)
  | .dayOfMonth =>
    if term.count < 1 then none else some (dayOf d.year d.month (min term.count (lastDayOfMonth d.year d.month)))
  | .amount =>
    match term.unit with
    | .day => some (d.daysSinceFirst + signed term)
    | .week => some (d.daysSinceFirst + signed term * 7)
    | .month => some (monthsOn d (signed term))
    | .quarter => some (monthsOn d (signed term * 3))
    | .year => some (monthsOn d (signed term * 12))

/-- The date that a term moves a date to; the undefined date is moved nowhere. -/
def moved (d : Date) (term : Term) : Date :=
  if d.isUndefined then d else (reached d term).elim d fromDaysSinceFirst

/-- The formula is read and evaluated without a fault, to the date that its terms, from the left, move the date to.
-/
def Right (terms : List Term) (from_ : Date) : Prop :=
  (counted terms >>= fun _ => calcDate terms from_) = .ok (terms.foldl moved from_)

/-! ### What the code can do -/

/-- The months of an `int`, with no month below zero. -/
def Months (total : Int) : Prop := Fits total ∧ (total < 0 → total % 12 = 0 ∨ total % 12 = 11)

/-- A term computes in `int`s, and looks up no length of a month below zero. -/
def Computes (d : Date) (term : Term) : Prop :=
  let months := d.year * 12 + d.month - 1
  match term.kind with
  | .week => Fits (((term.count : Int) - 1) * 7) ∧ Fits ((firstMonday d).daysSinceFirst +
      ((term.count : Int) - 1) * 7)
  | .amount =>
    match term.unit with
    | .day => Fits (d.daysSinceFirst + signed term)
    | .week => Fits (signed term * 7) ∧ Fits (d.daysSinceFirst + signed term * 7)
    | .month => Months (months + signed term)
    | .quarter => Fits (signed term * 3) ∧ Months (months + signed term * 3)
    | .year => Fits (signed term * 12) ∧ Months (months + signed term * 12)
  | _ => True

/-- From a date of the range: a month's or a quarter's end is not that of the last year, and a weekday is not on
the other side of the date's own in its week. -/
def Straight (d : Date) (term : Term) : Prop :=
  match term.kind with
  | .period =>
    match term.unit with
    | .month => term.negative = false → ¬ (d.year = 9999 ∧ d.month = 12)
    | .quarter => term.negative = false → ¬ (d.year = 9999 ∧ 10 ≤ d.month)
    | _ => True
  | .weekday =>
    1 ≤ term.count → term.count ≤ 7 →
      if term.negative then (term.count : Int) ≤ d.dayOfWeek else d.dayOfWeek ≤ term.count
  | _ => True

/-- The undefined date, whose day number is below the range by one and whose weekday is zero, is left undefined: no
week's end is taken of it, no weekday but the seventh backwards, no week but the one before the first, and nothing
is added to it that is in the range. -/
def Stays (term : Term) : Prop :=
  match term.kind with
  | .period => term.unit ≠ .week
  | .weekday => 1 ≤ term.count → term.count ≤ 7 → term.negative = true ∧ term.count = 7
  | .week => term.count = 0 ∨ (lastDayIndex : Int) < (term.count - 1) * 7
  | .dayOfMonth => True
  | .amount =>
    match term.unit with
    | .day => signed term < 1 ∨ (lastDayIndex : Int) + 1 < signed term
    | .week => signed term < 1 ∨ (lastDayIndex : Int) + 1 < signed term * 7
    | _ => True

/-- A term does to a date what it should. -/
def Sound (d : Date) (term : Term) : Prop := Computes d term ∧
    if d.isUndefined then Stays term else Straight d term

/-! ### Faults -/

theorem int_ok {n : Int} (h : Fits n) : int n = .ok n := by
  rw [int, if_pos h]

theorem fits_of_int {n m : Int} (h : int n = .ok m) : Fits n ∧ n = m := by
  unfold int at h
  split at h
  · next hfits => exact ⟨hfits, Except.ok.inj h⟩
  · cases h

/-- A date some months on, as the code computes it. -/
def addedMonths (d : Date) (months : Int) : Date :=
  let total := d.year * 12 + d.month - 1 + months
  let year := total.tdiv 12
  let month := (total.tmod 12 + 1).toNat
  fromYmd year month (if d.day < lastDayOfMonth year month then d.day else lastDayOfMonth year month)

/-- The month that a remainder names is one of the table's, or none. -/
theorem month_below {total : Int} : total.tmod 12 + 1 < 0 ↔ total < 0 ∧ ¬ (total % 12 = 0 ∨ total % 12 = 11) := by
  obtain ⟨year, hyear, hmod⟩ : ∃ year : Int, (year = 0 ∧ (0 ≤ total ∨ (12 : Int) ∣ total) ∨ year = 12 ∧
      total < 0 ∧ ¬ (12 : Int) ∣ total) ∧
      total.tmod 12 = total % 12 - year := by
    refine ⟨_, ?_, Int.tmod_eq_emod⟩
    split
    · next h => exact .inl ⟨rfl, h⟩
    · next h => exact .inr ⟨rfl, by omega, by omega⟩
  rw [hmod]
  omega

theorem addMonths_ok {d : Date} {months : Int} (h : Months (d.year * 12 + d.month - 1 + months)) :
    addMonths d months = .ok (addedMonths d months) := by
  have hmonth : ¬ (d.year * 12 + d.month - 1 + months).tmod 12 + 1 < 0 := by
    rw [month_below]
    exact fun hbelow => hbelow.2 (h.2 hbelow.1)
  refine (bind_ok (int_ok h.1)).trans (bind_ok ?_)
  rw [lengthOf, if_neg hmonth]

theorem months_of_addMonths {d e : Date} {months : Int} (h : addMonths d months = .ok e) :
    Months (d.year * 12 + d.month - 1 + months) := by
  obtain ⟨total, htotal, hrest⟩ := of_bind h
  obtain ⟨hfits, rfl⟩ := fits_of_int htotal
  obtain ⟨length, hlength, -⟩ := of_bind hrest
  refine ⟨hfits, fun hnegative => ?_⟩
  by_contra hmonth
  rw [lengthOf, if_pos (month_below.mpr ⟨hnegative, hmonth⟩)] at hlength
  cases hlength

/-- What a turn leaves where it computes. -/
def result (d : Date) (term : Term) : Date :=
  match term.kind with
  | .period => boundary d term.unit term.negative
  | .weekday => weekday d term.count term.negative
  | .week => fromDaysSinceFirst ((firstMonday d).daysSinceFirst + ((term.count : Int) - 1) * 7)
  | .dayOfMonth => dayOfMonth d term.count
  | .amount =>
    match term.unit with
    | .day => fromDaysSinceFirst (d.daysSinceFirst + signed term)
    | .week => fromDaysSinceFirst (d.daysSinceFirst + signed term * 7)
    | .month => addedMonths d (signed term)
    | .quarter => addedMonths d (signed term * 3)
    | .year => addedMonths d (signed term * 12)

/-- A turn leaves a date exactly if it computes. -/
theorem step_computes {d : Date} {term : Term} (h : Computes d term) : step d term = .ok (result d term) := by
  obtain ⟨kind, unit, count, negative⟩ := term
  cases kind with
  | period | weekday | dayOfMonth => rfl
  | week =>
    change int _ >>= _ = _
    rw [int_ok h.1]
    change int _ >>= _ = _
    rw [int_ok h.2]
    rfl
  | amount =>
    cases unit with
    | day =>
      change int _ >>= _ = _
      rw [int_ok h]
      rfl
    | week =>
      change int _ >>= _ = _
      rw [int_ok h.1]
      change int _ >>= _ = _
      rw [int_ok h.2]
      rfl
    | month => exact addMonths_ok h
    | quarter | year =>
      change int _ >>= _ = _
      rw [int_ok h.1]
      exact addMonths_ok h.2

theorem computes_of_step {d e : Date} {term : Term} (h : step d term = .ok e) : Computes d term := by
  obtain ⟨kind, unit, count, negative⟩ := term
  cases kind with
  | period | weekday | dayOfMonth => trivial
  | week =>
    obtain ⟨weeks, hweeks, h⟩ := of_bind h
    obtain ⟨hfits, rfl⟩ := fits_of_int hweeks
    obtain ⟨days, hdays, -⟩ := of_bind h
    exact ⟨hfits, (fits_of_int hdays).1⟩
  | amount =>
    cases unit with
    | day =>
      obtain ⟨days, hdays, -⟩ := of_bind h
      exact (fits_of_int hdays).1
    | week =>
      obtain ⟨weeks, hweeks, h⟩ := of_bind h
      obtain ⟨hfits, rfl⟩ := fits_of_int hweeks
      obtain ⟨days, hdays, -⟩ := of_bind h
      exact ⟨hfits, (fits_of_int hdays).1⟩
    | month => exact months_of_addMonths h
    | quarter | year =>
      obtain ⟨months, hmonths, h⟩ := of_bind h
      obtain ⟨hfits, rfl⟩ := fits_of_int hmonths
      exact ⟨hfits, months_of_addMonths h⟩

/-! ### From the undefined date -/

theorem fromDays_eq_undefined_iff {k : Int} : fromDaysSinceFirst k = undefined ↔
    k < 0 ∨ (lastDayIndex : Int) < k := by
  refine ⟨fun h => ?_, fromDays_outside⟩
  by_contra hrange
  have hdefined := fromDays_defined (k := k) (by omega) (by omega)
  rw [h] at hdefined
  cases hdefined

theorem fromYmd_dayless (y : Int) (m : Nat) : fromYmd y m 0 = undefined :=
  fromYmd_unreal (by simp [isRealDate])

/-- No month is added to a date that has no day. -/
theorem addedMonths_undefined (months : Int) : addedMonths undefined months = undefined := by
  unfold addedMonths
  dsimp only
  split
  · exact fromYmd_dayless _ _
  · next h =>
    rw [Nat.eq_zero_of_not_pos h]
    exact fromYmd_dayless _ _

theorem result_undefined_iff (term : Term) : result undefined term = undefined ↔ Stays term := by
  obtain ⟨kind, unit, count, negative⟩ := term
  cases kind with
  | period =>
    simp only [result, Stays]
    cases unit <;> cases negative <;> decide
  | weekday =>
    simp only [result, Stays]
    by_cases h : count < 1 ∨ 7 < count
    · rw [weekday, if_pos h]
      exact ⟨fun _ hlow hhigh => by omega, fun _ => rfl⟩
    · have hlow : 1 ≤ count := by omega
      have hhigh : count ≤ 7 := by omega
      cases negative <;> interval_cases count <;> decide
  | week =>
    have hmonday : (firstMonday undefined).daysSinceFirst = 0 := by decide
    simp only [result, Stays, hmonday, fromDays_eq_undefined_iff]
    omega
  | dayOfMonth =>
    refine iff_of_true ?_ trivial
    simp only [result, dayOfMonth]
    split
    · rfl
    · exact fromYmd_unreal rfl
  | amount =>
    cases unit with
    | day | week =>
      simp only [result, Stays, show undefined.daysSinceFirst = -1 from rfl, fromDays_eq_undefined_iff]
      omega
    | month | quarter | year => exact iff_of_true (addedMonths_undefined _) trivial

/-! ### From a date of the range -/

/-- A month's end, found before the next month's first day. -/
theorem monthEnd_iff {y : Int} {m : Nat} (hlow : 1 ≤ m) (hhigh : m ≤ 12) (hfirst : 1753 ≤ y) (hlast : y ≤ 9999) :
    fromDaysSinceFirst ((fromYmd (if m = 12 then y + 1 else y) (if m = 12 then 1 else m + 1) 1).daysSinceFirst -
        1) =
      fromDaysSinceFirst (dayOf y m (lastDayOfMonth y m)) ↔ ¬ (y = 9999 ∧ m = 12) := by
  have hlength := lastDayOfMonth_ge y hlow hhigh
  have hreal : isRealDate y m (lastDayOfMonth y m) = true := isRealDate_of hlow hhigh (by omega) (Nat.le_refl _)
  have hrange := (dayOf_range hreal).mpr ⟨hfirst, hlast⟩
  have hnext : isRealDate (if m = 12 then y + 1 else y) (if m = 12 then 1 else m + 1) 1 = true := by
    have hone := lastDayOfMonth_ge (if m = 12 then y + 1 else y) (m := if m = 12 then 1 else m + 1)
        (by split <;> omega)
      (by split <;> omega)
    exact isRealDate_of (by split <;> omega) (by split <;> omega) (Nat.le_refl 1) (by omega)
  rw [fromYmd_real hnext, ← dayOf_next hlow hhigh] at *
  by_cases hend : y = 9999 ∧ m = 12
  · obtain ⟨rfl, rfl⟩ := hend
    decide
  · refine iff_of_true ?_ hend
    have hnextRange := (dayOf_range hnext).mpr (by split <;> omega)
    rw [daysSinceFirst_fromDays hnextRange.1 hnextRange.2]

theorem fromYmd_early {y : Int} (h : y < 1753) (m n : Nat) : fromYmd y m n = undefined := by
  rw [fromYmd, if_pos (by simp [h])]

theorem addedMonths_eq {d : Date} (hreal : isRealDate d.year d.month d.day = true) (months : Int) :
    addedMonths d months = fromDaysSinceFirst (monthsOn d months) := by
  obtain ⟨-, hday, -⟩ := isRealDate_iff hreal
  have htotal : d.year * 12 + d.month - 1 + months = d.year * 12 + (d.month - 1) + months := by omega
  unfold addedMonths monthsOn
  simp only [htotal]
  generalize d.year * 12 + ((d.month : Int) - 1) + months = total
  have hmonth : 1 ≤ (total % 12).toNat + 1 ∧ (total % 12).toNat + 1 ≤ 12 := by omega
  have hlength := lastDayOfMonth_ge (total / 12) hmonth.1 hmonth.2
  have htarget : isRealDate (total / 12) ((total % 12).toNat + 1)
      (min d.day (lastDayOfMonth (total / 12) ((total % 12).toNat + 1))) = true :=
    isRealDate_of hmonth.1 hmonth.2 (by omega) (by omega)
  by_cases hnegative : total < 0
  · obtain ⟨more, hmore, hyear⟩ : ∃ more : Int, more ≤ 1 ∧ total.tdiv 12 = total / 12 + more :=
      ⟨_, by split <;> decide, Int.tdiv_eq_ediv⟩
    have hrange := mt (dayOf_range htarget).mp (by omega)
    have hearly : total.tdiv 12 < 1753 := by
      rw [hyear]
      omega
    rw [fromYmd_early hearly, fromDays_outside (by omega)]
  · rw [Int.tdiv_eq_ediv_of_nonneg (by omega), Int.tmod_eq_emod_of_nonneg (by omega),
      show (total % 12 + 1).toNat = (total % 12).toNat + 1 by omega, ← fromYmd_real htarget]
    congr 1
    rw [Nat.min_def]
    split <;> split <;> omega

section defined
variable {d : Date} (hdefined : d.isUndefined = false)
include hdefined

theorem firstMonday_days : (firstMonday d).daysSinceFirst = weekOne d.year := by
  obtain ⟨-, hfirst, hlast, -⟩ := civil_real hdefined
  have hreal : isRealDate d.year 1 4 = true := isRealDate_of (by decide) (by decide) (by decide) (by
    have := lastDayOfMonth_ge d.year (m := 1) (by decide) (by decide)
    omega)
  have hrange := (dayOf_range hreal).mpr ⟨hfirst, hlast⟩
  have hbounds := isoWeekday_bounds (dayOf d.year 1 4)
  simp only [firstMonday, weekOne, fromYmd_real hreal]
  rw [dayOfWeek_eq (fromDays_defined hrange.1 hrange.2), daysSinceFirst_fromDays hrange.1 hrange.2]
  refine daysSinceFirst_fromDays ?_ (by omega)
  unfold isoWeekday
  omega

theorem period_iff (unit : DateUnit) (negative : Bool) (count : Nat) :
    result d ⟨.period, unit, count, negative⟩ = moved d ⟨.period, unit, count, negative⟩ ↔
      Straight d ⟨.period, unit, count, negative⟩ := by
  obtain ⟨hreal, hfirst, hlast, -⟩ := civil_real hdefined
  obtain ⟨⟨hm1, hm12⟩, -, -⟩ := isRealDate_iff hreal
  have hone : ∀ m : Nat, 1 ≤ m → m ≤ 12 → fromYmd d.year m 1 = fromDaysSinceFirst (dayOf d.year m 1) := by
    intro m hlow hhigh
    have := lastDayOfMonth_ge d.year hlow hhigh
    exact fromYmd_real (isRealDate_of hlow hhigh (Nat.le_refl 1) (by omega))
  simp only [result, moved, hdefined, Bool.false_eq_true, if_false, reached, boundary, Straight]
  cases unit with
  | day => exact iff_of_true rfl trivial
  | week => exact iff_of_true (by rw [dayOfWeek_eq hdefined]; rfl) trivial
  | month =>
    cases negative with
    | true => exact iff_of_true (hone _ hm1 hm12) (by intro hnone; cases hnone)
    | false => exact (monthEnd_iff hm1 hm12 hfirst hlast).trans ⟨fun h _ => h, fun h => h rfl⟩
  | quarter =>
    cases negative with
    | true => exact iff_of_true (hone _ (by omega) (by omega)) (by intro hnone; cases hnone)
    | false =>
      have hend := monthEnd_iff (y := d.year) (m := (d.month - 1) / 3 * 3 + 3) (by omega) (by omega) hfirst hlast
      refine hend.trans ⟨fun h _ hlate => h ⟨hlate.1, by omega⟩, fun h hlate => h rfl ⟨hlate.1, by omega⟩⟩
  | year =>
    cases negative with
    | true => exact iff_of_true (hone 1 (by decide) (by decide)) trivial
    | false => exact iff_of_true (fromYmd_real (isRealDate_of (by decide) (by decide) (by decide)
        (Nat.le_refl 31))) trivial

theorem weekday_iff (unit : DateUnit) (negative : Bool) (count : Nat) :
    result d ⟨.weekday, unit, count, negative⟩ = moved d ⟨.weekday, unit, count, negative⟩ ↔
      Straight d ⟨.weekday, unit, count, negative⟩ := by
  have hrange := daysSinceFirst_bounds hdefined
  have hweeks : lastDayIndex = 3012153 := rfl
  have hbounds := isoWeekday_bounds d.daysSinceFirst
  simp only [result, moved, hdefined, Bool.false_eq_true, if_false, reached, Straight]
  by_cases hweekday : count < 1 ∨ 7 < count
  · rw [weekday, if_pos hweekday, if_pos hweekday]
    exact iff_of_true rfl fun hlow hhigh => by omega
  have hlow : 1 ≤ count := by omega
  have hhigh : count ≤ 7 := by omega
  simp only [if_neg hweekday, hlow, hhigh, forall_const, dayOfWeek_eq hdefined]
  have houtside : ∀ {j k : Int}, fromDaysSinceFirst j = fromDaysSinceFirst k → j = k ∨
      (j < 0 ∨ (lastDayIndex : Int) < j) ∧ (k < 0 ∨ (lastDayIndex : Int) < k) := by
    intro j k heq
    by_cases hk : 0 ≤ k ∧ k ≤ lastDayIndex
    · exact .inl (fromDays_inj hk.1 hk.2 heq)
    · have hk' : k < 0 ∨ (lastDayIndex : Int) < k := by omega
      exact .inr ⟨fromDays_eq_undefined_iff.mp (heq.trans (fromDays_outside hk')), hk'⟩
  cases negative with
  | true =>
    rw [weekday_backwards hlow hhigh hdefined, if_pos rfl, if_pos rfl, orWeek]
    refine ⟨fun heq => ?_, fun hle => ?_⟩
    · by_contra hturned
      rw [if_neg (by omega), if_neg (by omega)] at heq
      rcases houtside heq with heq | hout <;> omega
    · change _ = fromDaysSinceFirst _
      congr 2
      split <;> split <;> omega
  | false =>
    rw [weekday_forward hlow hhigh hdefined, if_neg Bool.false_ne_true, if_neg Bool.false_ne_true, orWeek]
    refine ⟨fun heq => ?_, fun hle => ?_⟩
    · by_contra hturned
      rw [if_neg (by omega), if_neg (by omega)] at heq
      rcases houtside heq with heq | hout <;> omega
    · change _ = fromDaysSinceFirst _
      congr 2
      split <;> split <;> omega

theorem result_iff (term : Term) : result d term = moved d term ↔ Straight d term := by
  obtain ⟨hreal, hfirst, hlast, hdays⟩ := civil_real hdefined
  obtain ⟨⟨hm1, hm12⟩, -, -⟩ := isRealDate_iff hreal
  obtain ⟨kind, unit, count, negative⟩ := term
  cases kind with
  | period => exact period_iff hdefined unit negative count
  | weekday => exact weekday_iff hdefined unit negative count
  | week =>
    refine iff_of_true ?_ trivial
    simp only [result, moved, hdefined, Bool.false_eq_true, if_false, reached, firstMonday_days hdefined]
    rfl
  | dayOfMonth =>
    refine iff_of_true ?_ trivial
    simp only [result, moved, hdefined, Bool.false_eq_true, if_false, reached, dayOfMonth]
    split
    · rfl
    · next hcount =>
      have hlength := lastDayOfMonth_ge d.year hm1 hm12
      have hmin : (if count < lastDayOfMonth d.year d.month then count else lastDayOfMonth d.year d.month) =
          min count (lastDayOfMonth d.year d.month) := by
        rw [Nat.min_def]
        split <;> split <;> omega
      rw [hmin]
      exact fromYmd_real (isRealDate_of hm1 hm12 (by omega) (by omega))
  | amount =>
    simp only [result, moved, hdefined, Bool.false_eq_true, if_false, reached, Straight, iff_true]
    cases unit with
    | day | week => rfl
    | month | quarter | year => exact addedMonths_eq hreal _

end defined

/-- One turn does what its term should exactly if the term is sound. -/
theorem step_iff (d : Date) (term : Term) : step d term = .ok (moved d term) ↔ Sound d term := by
  have hvalue : result d term = moved d term ↔ if d.isUndefined then Stays term else Straight d term := by
    cases hundefined : d.isUndefined with
    | true =>
      obtain rfl := undefined_iff.mp hundefined
      exact result_undefined_iff term
    | false => exact result_iff hundefined term
  rw [Sound, ← hvalue]
  constructor
  · intro h
    have hcomputes := computes_of_step h
    rw [step_computes hcomputes] at h
    exact ⟨hcomputes, Except.ok.inj h⟩
  · rintro ⟨hcomputes, heq⟩
    rw [step_computes hcomputes, heq]

/-! ### Runs -/

theorem counted_cons (term : Term) (rest : List Term) :
    counted (term :: rest) = ((fun _ => ()) <$> int term.count) >>= fun _ => counted rest := by
  have hcons : ∀ check : Term → Except Fault Unit,
      List.forM (term :: rest) check = check term >>= fun _ => List.forM rest check := fun _ => rfl
  exact hcons _

theorem counted_iff (terms : List Term) : counted terms = .ok () ↔ ∀ term ∈ terms, Fits term.count := by
  induction terms with
  | nil => exact iff_of_true rfl nofun
  | cons term rest ih =>
    rw [List.forall_mem_cons, ← ih, counted_cons]
    constructor
    · intro h
      obtain ⟨⟨⟩, hcount, hrest⟩ := of_bind h
      obtain ⟨count, hint, -⟩ := of_map hcount
      exact ⟨(fits_of_int hint).1, hrest⟩
    · rintro ⟨hfits, hrest⟩
      rw [int_ok hfits, hrest]
      rfl

theorem right_iff (terms : List Term) (from_ : Date) : Right terms from_ ↔
    (∀ term ∈ terms, Fits term.count) ∧ calcDate terms from_ = .ok (terms.foldl moved from_) := by
  rw [← counted_iff, Right]
  constructor
  · intro h
    obtain ⟨⟨⟩, hcounted, hcalc⟩ := of_bind h
    exact ⟨hcounted, hcalc⟩
  · rintro ⟨hcounted, hcalc⟩
    exact (bind_ok hcounted).trans hcalc

theorem moved_undefined {from_ : Date} (h : from_.isUndefined = true) (terms : List Term) :
    terms.foldl moved from_ = from_ := by
  induction terms with
  | nil => rfl
  | cons term rest ih => rw [List.foldl_cons, moved, if_pos h, ih]

/-- One term more. -/
theorem right_concat {terms : List Term} {from_ : Date} (h : Right terms from_) (term : Term) :
    Right (terms ++ [term]) from_ ↔
      Fits term.count ∧ (from_.isUndefined = true ∨ Sound (terms.foldl moved from_) term) := by
  obtain ⟨hfits, hcalc⟩ := (right_iff terms from_).mp h
  have hall : (∀ other ∈ terms ++ [term], Fits other.count) ↔ Fits term.count := by
    rw [List.forall_mem_append, List.forall_mem_singleton]
    exact and_iff_right hfits
  rw [right_iff, hall]
  refine and_congr_right fun _ => ?_
  cases hundefined : from_.isUndefined with
  | true => exact iff_of_true (by rw [calcDate_undefined hundefined, moved_undefined hundefined]) (.inl rfl)
  | false =>
    have hstep : calcDate (terms ++ [term]) from_ = step (terms.foldl moved from_) term := by
      rw [calcDate_concat hundefined, hcalc]
      rfl
    rw [hstep, List.foldl_append, List.foldl_cons, List.foldl_nil, step_iff]
    exact (or_iff_right Bool.false_ne_true).symm

/-- **When a formula is evaluated as it should be**, with every formula that it begins with: where each number is
an `int`, and, from a date of the range, each term is sound at the date that the terms before it move the date to.
-/
theorem calcDate_right_iff (terms : List Term) (from_ : Date) : (∀ before, before <+: terms → Right before from_) ↔
    (∀ term ∈ terms, Fits term.count) ∧
      (from_.isUndefined = true ∨ ∀ before term, before ++ [term] <+: terms →
          Sound (before.foldl moved from_) term) := by
  induction terms using List.reverseRecOn with
  | nil =>
    refine iff_of_true (fun before h => ?_) ⟨nofun, .inr fun before term h => ?_⟩
    · rw [List.prefix_nil.mp h, right_iff]
      refine ⟨nofun, ?_⟩
      rw [calcDate]
      split <;> rfl
    · exact absurd (List.prefix_nil.mp h) (by simp)
  | append_singleton terms term ih =>
    constructor
    · intro h
      have hbefore := fun before (hstart : before <+: terms) => h before (hstart.trans (List.prefix_append _ _))
      have hlast := (right_concat (hbefore terms List.prefix_rfl) term).mp (h _ List.prefix_rfl)
      obtain ⟨hfits, hsound⟩ := ih.mp hbefore
      refine ⟨fun other hmem => ?_, ?_⟩
      · rcases List.mem_append.mp hmem with hmem | hmem
        · exact hfits other hmem
        · rw [List.mem_singleton.mp hmem]
          exact hlast.1
      · rcases hsound with hundefined | hsound
        · exact .inl hundefined
        · refine hlast.2.imp_right fun hterm before next hstart => ?_
          rcases List.prefix_concat_iff.mp hstart with heq | hstart
          · obtain ⟨rfl, rfl⟩ := List.append_singleton_inj.mp heq
            exact hterm
          · exact hsound before next hstart
    · rintro ⟨hfits, hsound⟩ before hstart
      have hbefore := ih.mpr ⟨fun other hmem => hfits other (List.mem_append_left _ hmem),
        hsound.imp_right fun hsound before next hstart => hsound before next (hstart.trans (List.prefix_append _ _))⟩
      rcases List.prefix_concat_iff.mp hstart with rfl | hstart
      · exact (right_concat (hbefore terms List.prefix_rfl) term).mpr
          ⟨hfits term (List.mem_append_right _ List.mem_cons_self),
            hsound.imp_right fun hsound => hsound terms term List.prefix_rfl⟩
      · exact hbefore before hstart

/-- The end of December 9999 is the undefined date, and a day after it is in the year 1753 again. -/
theorem calcDate_resurrected : ¬ ∀ terms from_, Right terms from_ := by
  intro h
  have hright := ((right_iff _ _).mp (h [⟨.period, .month, 0, false⟩, ⟨.amount, .day, 1, false⟩]
      (fromYmd 9999 12 5))).2
  have hcalc : calcDate [⟨.period, .month, 0, false⟩, ⟨.amount, .day, 1, false⟩] (fromYmd 9999 12 5) =
      .ok (fromYmd 1753 1 1) := by rfl
  rw [hcalc] at hright
  exact absurd (Except.ok.inj hright) (by decide)

end Agiru.CalcDate
