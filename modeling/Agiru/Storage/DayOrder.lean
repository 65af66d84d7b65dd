import Agiru.Storage.Instants

/-! The texts of dates are in the order of their days.

A day's number grows with its year, month and day (`daysFromCivil_lt`), and digits of one length compare
as the numbers they name; a date's closing is not in its text. -/
namespace Agiru.Calendar

/-- The day before the first of March of a year. -/
def marches (y : Int) : Int := 365 * y + y / 4 - y / 100 + y / 400

/-- The day of a year that begins in March. -/
def dayInYear (m d : Nat) : Nat := (153 * (if m > 2 then m - 3 else m + 9) + 2) / 5 + d - 1

theorem daysFromCivil_marches (y : Int) (m d : Nat) :
    daysFromCivil y m d = marches (if m ≤ 2 then y - 1 else y) + dayInYear m d - eraToEpoch := by
  unfold daysFromCivil marches dayInYear
  dsimp only
  generalize (if m ≤ 2 then y - 1 else y) = year
  generalize (153 * (if m > 2 then m - 3 else m + 9) + 2) / 5 + d - 1 = doy
  simp only [daysPerEra]
  omega

theorem isRealDate_iff {y : Int} {m d : Nat} (h : isRealDate y m d = true) :
    (1 ≤ m ∧ m ≤ 12) ∧ 1 ≤ d ∧ d ≤ lastDayOfMonth y m := by
  simpa [isRealDate, Bool.and_eq_true, and_assoc] using h

theorem lastDayOfMonth_le (y : Int) {m : Nat} (hm : m ≤ 12) : lastDayOfMonth y m ≤ 31 := by
  unfold lastDayOfMonth
  split
  · decide
  · interval_cases m <;> decide

/-- February's last day is the last of the year that ends before March. -/
theorem february {y : Int} {d : Nat} (h : d ≤ lastDayOfMonth y 2) :
    marches (y - 1) + dayInYear 2 d < marches y := by
  have hd : d ≤ 28 ∨ (d ≤ 29 ∧ isLeapYear y = true) := by
    unfold lastDayOfMonth at h
    cases hleap : isLeapYear y with
    | false =>
      rw [hleap] at h
      exact .inl h
    | true =>
      rw [hleap] at h
      exact .inr ⟨h, rfl⟩
  have hday : dayInYear 2 d = 337 + d - 1 := rfl
  rw [hday]
  unfold marches
  rcases hd with hd | ⟨hd, hleap⟩
  · omega
  · simp only [isLeapYear, Bool.or_eq_true, Bool.and_eq_true, decide_eq_true_eq] at hleap
    omega

/-- A later month of the year that begins in March begins after the last day of an earlier one. -/
theorem dayInYear_lt {y : Int} {m d m' d' : Nat} (hm : 2 < m) (hlt : m < m') (hm' : m' ≤ 12)
    (hd : d ≤ lastDayOfMonth y m) (hd' : 1 ≤ d') : dayInYear m d < dayInYear m' d' := by
  have hlast : lastDayOfMonth y m = [0, 31, 28, 31, 30, 31, 30, 31, 31, 30, 31, 30, 31].getD m 0 := by
    unfold lastDayOfMonth
    rw [if_neg]
    simp only [Bool.and_eq_true, decide_eq_true_eq, not_and]
    intro heq
    omega
  rw [hlast] at hd
  unfold dayInYear
  rw [if_pos hm, if_pos (by omega)]
  have hm12 : m ≤ 12 := by omega
  interval_cases m <;> simp at hd <;> omega

theorem daysFromCivil_lt {y y' : Int} {m m' d d' : Nat} (h : isRealDate y m d = true)
    (h' : isRealDate y' m' d' = true) (hlt : y < y' ∨ y = y' ∧ (m < m' ∨ m = m' ∧ d < d')) :
    daysFromCivil y m d < daysFromCivil y' m' d' := by
  obtain ⟨⟨hm1, hm12⟩, hd1, hd⟩ := isRealDate_iff h
  obtain ⟨⟨hm1', hm12'⟩, hd1', hd'⟩ := isRealDate_iff h'
  have hd31 := lastDayOfMonth_le y hm12
  rw [daysFromCivil_marches, daysFromCivil_marches]
  rcases hlt with hyear | ⟨rfl, hmonth | ⟨rfl, hday⟩⟩
  · -- January of the later year, and December of the earlier
    have hearly : marches (if m ≤ 2 then y - 1 else y) + dayInYear m d ≤ marches y + 305 := by
      split
      · next hm =>
        have : dayInYear m d ≤ 367 := by
          unfold dayInYear
          rw [if_neg (by omega)]
          omega
        unfold marches
        omega
      · next hm =>
        have : dayInYear m d ≤ 305 := by
          by_cases hdec : m = 12
          · subst hdec
            have : d ≤ 31 := by omega
            show 275 + d - 1 ≤ 305
            omega
          · have hlater : dayInYear m d < dayInYear 12 1 :=
              dayInYear_lt (by omega) (by omega) (by omega) hd (by omega)
            have htwelve : dayInYear 12 1 = 275 := rfl
            omega
        omega
    have hlate : marches (y' - 1) + 306 ≤ marches (if m' ≤ 2 then y' - 1 else y') + dayInYear m' d' := by
      split
      · next hm =>
        have : 306 ≤ dayInYear m' d' := by
          unfold dayInYear
          rw [if_neg (by omega)]
          omega
        omega
      · next hm =>
        unfold marches
        omega
    have hyears : marches y ≤ marches (y' - 1) := by
      unfold marches
      omega
    omega
  · by_cases hm : m ≤ 2
    · rw [if_pos hm]
      by_cases hm' : m' ≤ 2
      · obtain rfl : m = 1 := by omega
        obtain rfl : m' = 2 := by omega
        have hd31 : d ≤ 31 := by omega
        have h1 : dayInYear 1 d = 306 + d - 1 := rfl
        have h2 : dayInYear 2 d' = 337 + d' - 1 := rfl
        rw [if_pos (by omega)]
        omega
      · rw [if_neg hm']
        have hbefore : marches (y - 1) + dayInYear m d < marches y := by
          by_cases hfeb : m = 2
          · subst hfeb
            exact february hd
          · obtain rfl : m = 1 := by omega
            have h1 : dayInYear 1 d = 306 + d - 1 := rfl
            unfold marches
            omega
        omega
    · rw [if_neg hm, if_neg (by omega)]
      have := dayInYear_lt (by omega) hmonth hm12' hd hd1'
      omega
  · have hsame : dayInYear m d < dayInYear m d' := by
      unfold dayInYear
      omega
    omega

/-- The order of two days. -/
theorem compare_civil (a b : Int) :
    ((Ord.compare (civilFromDays a).year (civilFromDays b).year).then
      ((Ord.compare (civilFromDays a).month (civilFromDays b).month).then
        (Ord.compare (civilFromDays a).day (civilFromDays b).day))) = Ord.compare a b := by
  have hlt : ∀ a b : Int, a < b → (civilFromDays a).year < (civilFromDays b).year ∨
      (civilFromDays a).year = (civilFromDays b).year ∧ ((civilFromDays a).month < (civilFromDays b).month ∨
        (civilFromDays a).month = (civilFromDays b).month ∧ (civilFromDays a).day < (civilFromDays b).day) := by
    intro a b hab
    by_contra hnot
    have hle : ¬ (civilFromDays b).year < (civilFromDays a).year ∧
        ((civilFromDays b).year = (civilFromDays a).year → ¬ (civilFromDays b).month < (civilFromDays a).month ∧
          ((civilFromDays b).month = (civilFromDays a).month →
            ¬ (civilFromDays b).day < (civilFromDays a).day)) := by
      by_contra hgt
      have hless := daysFromCivil_lt (isRealDate_civil b) (isRealDate_civil a) (by omega)
      rw [daysFromCivil_civil, daysFromCivil_civil] at hless
      omega
    have hsame : civilFromDays a = civilFromDays b := by
      have hy : (civilFromDays a).year = (civilFromDays b).year := by omega
      have hm : (civilFromDays a).month = (civilFromDays b).month := by omega
      have hd : (civilFromDays a).day = (civilFromDays b).day := by omega
      cases ha : civilFromDays a
      cases hb : civilFromDays b
      simp only [ha, hb] at hy hm hd
      rw [hy, hm, hd]
    have := daysFromCivil_civil a
    rw [hsame, daysFromCivil_civil] at this
    omega
  rcases Int.lt_trichotomy a b with h | rfl | h
  · rw [compare_lt_iff_lt.mpr h, Ordering.then_eq_lt]
    rcases hlt a b h with hy | ⟨hy, hm | ⟨hm, hd⟩⟩
    · exact .inl (compare_lt_iff_lt.mpr hy)
    · exact .inr ⟨compare_eq_iff_eq.mpr hy, Ordering.then_eq_lt.mpr (.inl (compare_lt_iff_lt.mpr hm))⟩
    · exact .inr ⟨compare_eq_iff_eq.mpr hy,
        Ordering.then_eq_lt.mpr (.inr ⟨compare_eq_iff_eq.mpr hm, compare_lt_iff_lt.mpr hd⟩)⟩
  · simp
  · rw [compare_gt_iff_gt.mpr h, Ordering.then_eq_gt]
    rcases hlt b a h with hy | ⟨hy, hm | ⟨hm, hd⟩⟩
    · exact .inl (compare_gt_iff_gt.mpr hy)
    · exact .inr ⟨compare_eq_iff_eq.mpr hy.symm, Ordering.then_eq_gt.mpr (.inl (compare_gt_iff_gt.mpr hm))⟩
    · exact .inr ⟨compare_eq_iff_eq.mpr hy.symm,
        Ordering.then_eq_gt.mpr (.inr ⟨compare_eq_iff_eq.mpr hm.symm, compare_gt_iff_gt.mpr hd⟩)⟩

end Agiru.Calendar

namespace Agiru.Storage
open Bytes

/-! ### Texts of one length -/

theorem compare_append {a b : Bytes} (h : a.length = b.length) (x y : Bytes) :
    Ord.compare (a ++ x) (b ++ y) = (Ord.compare a b).then (Ord.compare x y) := by
  induction a generalizing b with
  | nil =>
    obtain rfl := List.length_eq_zero_iff.mp h.symm
    simp
  | cons c a ih =>
    obtain ⟨d, b, rfl⟩ := List.exists_cons_of_length_eq_add_one h.symm
    rw [List.cons_append, List.cons_append, List.compare_cons_cons, List.compare_cons_cons,
      ih (Nat.succ.inj h), Ordering.then_assoc]

theorem compare_digit {c d : UInt8} (hc : isDigit c = true) (hd : isDigit d = true) :
    Ord.compare c d = Ord.compare (c.toNat - 48) (d.toNat - 48) := by
  simp only [isDigit, Bool.and_eq_true, decide_eq_true_eq, UInt8.le_iff_toNat_le] at hc hd
  have hlow : (48 : UInt8).toNat = 48 := rfl
  show compareOfLessAndEq c d = compareOfLessAndEq (c.toNat - 48) (d.toNat - 48)
  unfold compareOfLessAndEq
  rcases Nat.lt_trichotomy c.toNat d.toNat with h | h | h
  · rw [if_pos (UInt8.lt_iff_toNat_lt.mpr h), if_pos (by omega)]
  · obtain rfl := UInt8.toNat_inj.mp h
    rw [if_neg (UInt8.lt_irrefl c), if_pos rfl, if_neg (Nat.lt_irrefl _), if_pos rfl]
  · have hne : c ≠ d := by
      rintro rfl
      exact Nat.lt_irrefl _ h
    rw [if_neg (fun hlt => Nat.lt_asymm h (UInt8.lt_iff_toNat_lt.mp hlt)), if_neg hne, if_neg (by omega),
      if_neg (by omega)]

/-- Places compare before what stands behind them. -/
theorem compare_places {place v w : Nat} (hv : v < place) (hw : w < place) (m n : Nat) :
    (Ord.compare m n).then (Ord.compare v w) = Ord.compare (m * place + v) (n * place + w) := by
  rcases Nat.lt_trichotomy m n with h | rfl | h
  · have hlt : m * place + v < n * place + w := by
      have := Nat.mul_le_mul_right place (Nat.succ_le_of_lt h)
      rw [Nat.succ_mul] at this
      omega
    rw [compare_lt_iff_lt.mpr h, compare_lt_iff_lt.mpr hlt]
    rfl
  · rw [compare_eq_iff_eq.mpr rfl, Ordering.eq_then]
    rcases Nat.lt_trichotomy v w with h | rfl | h
    · rw [compare_lt_iff_lt.mpr h, compare_lt_iff_lt.mpr (Nat.add_lt_add_left h _)]
    · rw [compare_eq_iff_eq.mpr rfl, compare_eq_iff_eq.mpr rfl]
    · rw [compare_gt_iff_gt.mpr h, compare_gt_iff_gt.mpr (Nat.add_lt_add_left h _)]
  · have hgt : n * place + w < m * place + v := by
      have := Nat.mul_le_mul_right place (Nat.succ_le_of_lt h)
      rw [Nat.succ_mul] at this
      omega
    rw [compare_gt_iff_gt.mpr h, compare_gt_iff_gt.mpr hgt]
    rfl

theorem compare_digits {a b : Bytes} (ha : Digits a) (hb : Digits b) (h : a.length = b.length) :
    Ord.compare a b = Ord.compare (digitsValue a) (digitsValue b) := by
  induction a generalizing b with
  | nil =>
    obtain rfl := List.length_eq_zero_iff.mp h.symm
    simp
  | cons c a ih =>
    obtain ⟨d, b, rfl⟩ := List.exists_cons_of_length_eq_add_one h.symm
    have hlength : a.length = b.length := Nat.succ.inj h
    have hlow := digitsValue_lt ha.tail
    rw [hlength] at hlow
    rw [List.compare_cons_cons, ih ha.tail hb.tail hlength, digitsValue_cons, digitsValue_cons, hlength,
      compare_digit (ha c List.mem_cons_self) (hb d List.mem_cons_self), compare_places hlow (digitsValue_lt hb.tail)]

theorem compare_padded {width m n : Nat} (hwidth : 0 < width) (hm : m < 10 ^ width) (hn : n < 10 ^ width) :
    Ord.compare (padded width m) (padded width n) = Ord.compare m n := by
  rw [compare_digits (digits_padded width m) (digits_padded width n)
    ((padded_length hwidth hm).trans (padded_length hwidth hn).symm), digitsValue_padded, digitsValue_padded]

theorem compare_shift (i j k : Int) : Ord.compare (k + i) (k + j) = Ord.compare i j := by
  rcases Int.lt_trichotomy i j with h | rfl | h
  · rw [compare_lt_iff_lt.mpr h, compare_lt_iff_lt.mpr (Int.add_lt_add_left h k)]
  · rw [compare_eq_iff_eq.mpr rfl, compare_eq_iff_eq.mpr rfl]
  · rw [compare_gt_iff_gt.mpr h, compare_gt_iff_gt.mpr (Int.add_lt_add_left h k)]

theorem compare_cast (m n : Nat) : Ord.compare (m : Int) n = Ord.compare m n := by
  rcases Nat.lt_trichotomy m n with h | rfl | h
  · rw [compare_lt_iff_lt.mpr h, compare_lt_iff_lt.mpr (Int.ofNat_lt.mpr h)]
  · rw [compare_eq_iff_eq.mpr rfl, compare_eq_iff_eq.mpr rfl]
  · rw [compare_gt_iff_gt.mpr h, compare_gt_iff_gt.mpr (Int.ofNat_lt.mpr h)]

/-- The text of a date is in the order of its day, and an undefined date comes first. -/
theorem compare_dateText (d e : Date) :
    Ord.compare d.toInvariantString e.toInvariantString = Ord.compare (d.serial / 2) (e.serial / 2) := by
  have hknown := d.known
  have hknown' := e.known
  cases hd : d.isUndefined with
  | true =>
    have hserial : d.serial = 0 := by simpa [Date.isUndefined] using hd
    have htext : d.toInvariantString = [] := by rw [Date.toInvariantString, hd, if_pos rfl]
    rw [htext, hserial]
    cases he : e.isUndefined with
    | true =>
      have hserial' : e.serial = 0 := by simpa [Date.isUndefined] using he
      rw [Date.toInvariantString, he, if_pos rfl, hserial']
      rfl
    | false =>
      have hserial' : e.serial ≠ 0 := by simpa [Date.isUndefined] using he
      obtain ⟨c, rest, hcons⟩ : ∃ c rest, e.toInvariantString = c :: rest := by
        apply List.exists_cons_of_ne_nil
        simp [Date.toInvariantString, he]
      rw [hcons, compare_lt_iff_lt.mpr (show 0 / 2 < e.serial / 2 by omega)]
      rfl
  | false =>
    have hserial : d.serial ≠ 0 := by simpa [Date.isUndefined] using hd
    cases he : e.isUndefined with
    | true =>
      have hserial' : e.serial = 0 := by simpa [Date.isUndefined] using he
      have htext : e.toInvariantString = [] := by rw [Date.toInvariantString, he, if_pos rfl]
      obtain ⟨c, rest, hcons⟩ : ∃ c rest, d.toInvariantString = c :: rest := by
        apply List.exists_cons_of_ne_nil
        simp [Date.toInvariantString, hd]
      rw [hcons, htext, hserial', compare_gt_iff_gt.mpr (show 0 / 2 < d.serial / 2 by omega)]
      rfl
    | false =>
      have hserial' : e.serial ≠ 0 := by simpa [Date.isUndefined] using he
      obtain ⟨hyear, hy, hm, hday⟩ := civil_bounds hd
      obtain ⟨hyear', hy', hm', hday'⟩ := civil_bounds he
      have htext : ∀ date : Date, date.isUndefined = false → date.toInvariantString =
          padded 4 date.civil.year.toNat ++ ([Ch.minus] ++ (padded 2 date.civil.month ++
            ([Ch.minus] ++ padded 2 date.civil.day))) := by
        intro date hdate
        rw [Date.toInvariantString, hdate]
        simp
      have hyears : Ord.compare d.civil.year.toNat e.civil.year.toNat = Ord.compare d.civil.year e.civil.year := by
        rw [← compare_cast, hyear, hyear']
      have hlengths : ∀ m n, m < 100 → n < 100 → (padded 2 m).length = (padded 2 n).length :=
        fun m n hm hn => (padded_length (by decide) hm).trans (padded_length (by decide) hn).symm
      have hminus : Ord.compare [Ch.minus] [Ch.minus] = .eq := by decide
      rw [htext d hd, htext e he,
        compare_append ((padded_length (by decide) hy).trans (padded_length (by decide) hy').symm),
        compare_append rfl, compare_append (hlengths _ _ hm hm'), compare_append rfl, hminus,
        Ordering.eq_then, Ordering.eq_then, compare_padded (by decide) hy hy', compare_padded (by decide) hm hm',
        compare_padded (by decide) hday hday', hyears, Date.civil, Date.civil, Calendar.compare_civil]
      have hday : ∀ date : Date, epoch + (date.serial : Int) / 2 - 1 =
          (epoch - 1) + ((date.serial / 2 : Nat) : Int) := by
        intro date
        omega
      rw [hday d, hday e, compare_shift, compare_cast]

end Agiru.Storage
