import Agiru.Values.Clock

/-! The calendar's two functions are inverse: the date of a day names that day. -/
namespace Agiru.Calendar

/-! ### The year of an era -/

/-- `yoe` of `CivilFromDays`. -/
def yearOfEra (doe : Nat) : Nat := (doe - doe / 1460 + doe / 36524 - doe / 146096) / 365

/-- The first day of a year of the era. -/
def firstOfYear (yoe : Nat) : Nat := yoe * 365 + yoe / 4 - yoe / 100

theorem yearOfEra_split {c p s : Nat} (hc : c < 4) (hp : p < 25) (hs : s < 1461) (hr : 1461 * p + s < 36524) :
    yearOfEra (36524 * c + 1461 * p + s) = 100 * c + 4 * p + min (s / 365) 3 := by
  have hquad : (36524 * c + 1461 * p + s) / 1460 = 25 * c + p + (24 * c + p + s) / 1460 := by omega
  have hcent : (36524 * c + 1461 * p + s) / 36524 = c := by omega
  have hera : (36524 * c + 1461 * p + s) / 146096 = 0 := by omega
  rw [yearOfEra, hquad, hcent, hera]
  have hcarry : (24 * c + p + s) / 1460 ≤ 1 := by omega
  have hlate : (24 * c + p + s) / 1460 = 1 → 1364 ≤ s := by omega
  generalize (24 * c + p + s) / 1460 = carry at *
  omega

theorem firstOfYear_split {c p k : Nat} (hp : p < 25) (hk : k < 4) :
    firstOfYear (100 * c + 4 * p + k) = 36524 * c + 1461 * p + 365 * k := by
  rw [firstOfYear, show (100 * c + 4 * p + k) / 4 = 25 * c + p by omega,
    show (100 * c + 4 * p + k) / 100 = c by omega]
  omega

theorem yearOfEra_spec {doe : Nat} (h : doe < 146097) :
    yearOfEra doe < 400 ∧ firstOfYear (yearOfEra doe) ≤ doe ∧ doe - firstOfYear (yearOfEra doe) ≤ 365 ∧
      (doe - firstOfYear (yearOfEra doe) = 365 →
        (yearOfEra doe + 1) % 4 = 0 ∧ ((yearOfEra doe + 1) % 100 = 0 → (yearOfEra doe + 1) % 400 = 0)) := by
  by_cases hlast : doe = 146096
  · subst hlast
    decide
  obtain ⟨c, p, s, hc, hp, hs, hr, rfl⟩ : ∃ c p s, c < 4 ∧ p < 25 ∧ s < 1461 ∧ 1461 * p + s < 36524 ∧
      doe = 36524 * c + 1461 * p + s :=
    ⟨doe / 36524, doe % 36524 / 1461, doe % 36524 % 1461, by omega, by omega, by omega, by omega, by omega⟩
  rw [yearOfEra_split hc hp hs hr, firstOfYear_split hp (by omega)]
  omega

/-! ### The day of a year -/

/-- The months of a year that begins in March. -/
theorem month_spec : ∀ doy < 366,
    let mp := (5 * doy + 2) / 153
    let d := doy - (153 * mp + 2) / 5 + 1
    let m := if mp < 10 then mp + 3 else mp - 9
    1 ≤ m ∧ m ≤ 12 ∧ 1 ≤ d ∧ (153 * (if m > 2 then m - 3 else m + 9) + 2) / 5 + d - 1 = doy ∧
      (m = 2 → d ≤ 29 ∧ (d = 29 → doy = 365)) ∧
      (m ≠ 2 → d ≤ [0, 31, 28, 31, 30, 31, 30, 31, 31, 30, 31, 30, 31].getD m 0) := by
  decide +kernel

/-- The day of the year that begins in March. -/
def dayOfYear (doe : Nat) : Nat := doe - firstOfYear (yearOfEra doe)

theorem days_split (days : Int) :
    ∃ (era : Int) (doe : Nat), doe < 146097 ∧ days = era * daysPerEra + doe - eraToEpoch := by
  refine ⟨(days + eraToEpoch) / daysPerEra, ((days + eraToEpoch) % daysPerEra).toNat, ?_, ?_⟩ <;>
    simp only [daysPerEra, eraToEpoch] <;> omega

theorem civilFromDays_eq (era : Int) {doe : Nat} (h : doe < 146097) :
    civilFromDays (era * daysPerEra + doe - eraToEpoch) =
      let mp := (5 * dayOfYear doe + 2) / 153
      let m := if mp < 10 then mp + 3 else mp - 9
      ⟨if m ≤ 2 then yearOfEra doe + era * 400 + 1 else yearOfEra doe + era * 400, m,
        dayOfYear doe - (153 * mp + 2) / 5 + 1⟩ := by
  have hz : era * daysPerEra + doe - eraToEpoch + eraToEpoch = era * daysPerEra + doe := by omega
  have hera : (era * daysPerEra + doe) / daysPerEra = era := by
    simp only [daysPerEra]
    omega
  have hdoe : (era * daysPerEra + (doe : Int) - era * daysPerEra).toNat = doe := by omega
  have hyear : 365 * yearOfEra doe + yearOfEra doe / 4 - yearOfEra doe / 100 = firstOfYear (yearOfEra doe) := by
    rw [firstOfYear, Nat.mul_comm]
  unfold civilFromDays
  simp only [hz, hera, hdoe]
  rw [← yearOfEra, hyear]
  rfl

theorem daysFromCivil_eq (era : Int) {yoe : Nat} (m d : Nat) (hyoe : yoe < 400) :
    daysFromCivil (if m ≤ 2 then yoe + era * 400 + 1 else yoe + era * 400) m d =
      era * daysPerEra + (firstOfYear yoe + ((153 * (if m > 2 then m - 3 else m + 9) + 2) / 5 + d - 1) : Nat) -
        eraToEpoch := by
  have hy : (if m ≤ 2 then (if m ≤ 2 then (yoe : Int) + era * 400 + 1 else yoe + era * 400) - 1
      else (if m ≤ 2 then (yoe : Int) + era * 400 + 1 else yoe + era * 400)) = yoe + era * 400 := by
    split <;> omega
  have hera : ((yoe : Int) + era * 400) / 400 = era := by omega
  have hyoe : ((yoe : Int) + era * 400 - era * 400).toNat = yoe := by omega
  unfold daysFromCivil
  simp only [hy, hera, hyoe]
  rw [firstOfYear]

/-- A day's date names the day. -/
theorem daysFromCivil_civil (days : Int) :
    daysFromCivil (civilFromDays days).year (civilFromDays days).month (civilFromDays days).day = days := by
  obtain ⟨era, doe, hdoe, rfl⟩ := days_split days
  obtain ⟨hyoe, hfirst, hdoy, -⟩ := yearOfEra_spec hdoe
  obtain ⟨-, -, -, hday, -⟩ := month_spec (dayOfYear doe) (Nat.lt_succ_of_le hdoy)
  rw [civilFromDays_eq era hdoe]
  dsimp only at hday ⊢
  rw [daysFromCivil_eq era _ _ hyoe, hday, dayOfYear]
  omega

theorem isRealDate_civil (days : Int) :
    isRealDate (civilFromDays days).year (civilFromDays days).month (civilFromDays days).day = true := by
  obtain ⟨era, doe, hdoe, rfl⟩ := days_split days
  obtain ⟨hyoe, hfirst, hdoy, hleap⟩ := yearOfEra_spec hdoe
  obtain ⟨hm, hm12, hd, -, hfeb, hother⟩ := month_spec (dayOfYear doe) (Nat.lt_succ_of_le hdoy)
  rw [civilFromDays_eq era hdoe]
  dsimp only at hm hm12 hd hfeb hother ⊢
  simp only [isRealDate, Bool.and_eq_true, decide_eq_true_eq]
  refine ⟨⟨⟨hm, hm12⟩, hd⟩, ?_⟩
  generalize hmonth : (if (5 * dayOfYear doe + 2) / 153 < 10 then _ else _ : Nat) = m at *
  generalize hdayd : dayOfYear doe - (153 * _ + 2) / 5 + 1 = d at *
  unfold lastDayOfMonth
  by_cases hmf : m = 2
  · subst hmf
    rw [if_pos (Nat.le_refl 2)]
    obtain ⟨hle, heq⟩ := hfeb rfl
    by_cases hd29 : d = 29
    · have := hleap (heq hd29)
      have hlp : isLeapYear (yearOfEra doe + era * 400 + 1) = true := by
        simp only [isLeapYear, Bool.or_eq_true, Bool.and_eq_true, decide_eq_true_eq]
        omega
      simp [hlp, hle]
    · split
      · exact hle
      · show d ≤ 28
        omega
  · simp only [hmf, decide_false, Bool.false_and]
    exact hother hmf

theorem civil_year {days : Int} (hlow : epoch ≤ days) (hhigh : days ≤ epoch + lastDayIndex) :
    1753 ≤ (civilFromDays days).year ∧ (civilFromDays days).year ≤ 9999 := by
  obtain ⟨era, doe, hdoe, rfl⟩ := days_split days
  obtain ⟨hyoe, hfirst, hdoy, -⟩ := yearOfEra_spec hdoe
  have hmarch : (if (5 * dayOfYear doe + 2) / 153 < 10 then (5 * dayOfYear doe + 2) / 153 + 3
      else (5 * dayOfYear doe + 2) / 153 - 9) ≤ 2 ↔ 306 ≤ dayOfYear doe := by
    have : dayOfYear doe ≤ 365 := hdoy
    split <;> omega
  rw [civilFromDays_eq era hdoe]
  simp only [hmarch, daysPerEra, eraToEpoch, epoch, lastDayIndex] at hlow hhigh ⊢
  unfold dayOfYear firstOfYear at *
  generalize yearOfEra doe = yoe at *
  constructor <;> split <;> omega
end Agiru.Calendar

/-! ### Dates -/

namespace Agiru.Date

/-- A date without its closing. -/
def normal (d : Date) : Date :=
  if h : d.serial = 0 then d
  else ⟨d.serial / 2 * 2, by have := d.known; omega, by have := d.bounded; omega⟩

theorem fromYmd_civil {d : Date} (h : d.isUndefined = false) :
    fromYmd d.civil.year d.civil.month d.civil.day = d.normal := by
  have hserial : d.serial ≠ 0 := by simpa [isUndefined] using h
  have hknown := d.known
  have hbounded := d.bounded
  have hlow : epoch ≤ epoch + d.serial / 2 - 1 := by omega
  have hhigh : epoch + d.serial / 2 - 1 ≤ epoch + lastDayIndex := by omega
  obtain ⟨hfirst, hlast⟩ := Calendar.civil_year hlow hhigh
  have hdays : Calendar.daysFromCivil d.civil.year d.civil.month d.civil.day - epoch =
      (d.serial : Int) / 2 - 1 := by
    rw [civil, Calendar.daysFromCivil_civil]
    omega
  have hreal : Calendar.isRealDate d.civil.year d.civil.month d.civil.day = true := Calendar.isRealDate_civil _
  have hyears : ¬ (d.civil.year < 1753) ∧ ¬ (9999 < d.civil.year) := ⟨Int.not_lt.mpr hfirst, Int.not_lt.mpr hlast⟩
  rw [fromYmd, hdays, hreal, if_neg (by simpa using hyears), fromDaysSinceFirst, dif_pos (by omega), normal,
    dif_neg hserial]
  congr 1
  omega

theorem closing_normal {d : Date} (h : d.isClosing = true) : d.normal.closing = d := by
  have hclosing : d.serial ≠ 0 ∧ d.serial % 2 = 1 := by simpa [isClosing, isUndefined] using h
  have hknown := d.known
  obtain ⟨serial, known, bounded⟩ := d
  dsimp only at hclosing hknown
  have hserial : serial / 2 * 2 ≠ 0 := by omega
  simp only [normal, closing, dif_neg hclosing.1, dif_neg hserial]
  congr 1
  omega

theorem normal_of_not_closing {d : Date} (h : d.isClosing = false) : d.normal = d := by
  obtain ⟨serial, known, bounded⟩ := d
  have hclosing : serial ≠ 0 → serial % 2 = 0 := by simpa [isClosing, isUndefined] using h
  unfold normal
  split
  · rfl
  · rename_i hserial
    congr 1
    have := hclosing hserial
    dsimp only
    omega

end Agiru.Date
