import Agiru.Library.Procedure
import Agiru.Library.Digits
import Agiru.Storage.Calendar
import Agiru.Values.Decimal

/-! Numbers, dates and times as columns hold them.

A date's column names its day and, as the time of day, whether it is the day's closing date; the
undefined date stands as the first day. So a date is read back where it is not of the first day
(`dateFromStorageText_text`), and an instant until the last day's end
(`dateTimeFromStorageText_text`). -/
namespace Agiru.Storage
open Bytes

variable {n : Nat}

/-- Why a column is not read: what the standard's readers of numbers raise, what a value's own
reader refuses, and the refusal of a column. -/
inductive ColumnError
  | notNumber (function : Bytes)
  | outOfRange (function : Bytes)
  | decimal (e : DecimalError)
  | tooLong (text : Bytes)
  | unreadable (column held reason : Bytes)
  deriving Repr, DecidableEq

def ColumnError.text : ColumnError → Bytes
  | notNumber function => function
  | outOfRange function => function
  | decimal e => e.text
  | tooLong text => text
  | unreadable column held reason =>
    ascii "the column of " ++ column ++ ascii " holds " ++ held ++ ascii ", and " ++ reason

/-! ### Whole numbers -/

/-- A number of `std::stoi` and its like, in the range of their type. -/
def ranged (function : Bytes) (bits : Nat) (text : Bytes) : Except ColumnError Int :=
  match strtol 10 text with
  | none => .error (.notNumber function)
  | some n => if -2 ^ (bits - 1) ≤ n ∧ n < 2 ^ (bits - 1) then .ok n else .error (.outOfRange function)

def stoi : Bytes → Except ColumnError Int := ranged (ascii "stoi") 32

def stol : Bytes → Except ColumnError Int := ranged (ascii "stol") 64

def stoll : Bytes → Except ColumnError Int := ranged (ascii "stoll") 64

theorem strtol_intText (n : Int) : strtol 10 (intText n) = some n := by
  have hdigits : Digits (natText n.natAbs) := fun c hc => isDigit_natText hc
  unfold intText
  split
  · rw [List.singleton_append, strtol_minus hdigits (natText_ne_nil _), digitsValue_natText]
    congr 1
    omega
  · rw [List.nil_append, strtol_digits hdigits (natText_ne_nil _), digitsValue_natText]
    congr 1
    omega

theorem ranged_intText {function : Bytes} {bits : Nat} {n : Int} (hlow : -2 ^ (bits - 1) ≤ n)
    (hhigh : n < 2 ^ (bits - 1)) : ranged function bits (intText n) = .ok n := by
  rw [ranged, strtol_intText]
  exact if_pos ⟨hlow, hhigh⟩

theorem stoi_digits {digits : Bytes} (h : Digits digits) (hne : digits ≠ []) (hsmall : digits.length ≤ 9) :
    stoi digits = .ok (digitsValue digits : Int) := by
  have hlt : digitsValue digits < 10 ^ 9 :=
    Nat.lt_of_lt_of_le (digitsValue_lt h) (Nat.pow_le_pow_right (by decide) hsmall)
  rw [stoi, ranged, strtol_digits h hne]
  exact if_pos (by omega)

/-! ### Padded numbers -/

theorem digits_padded (width n : Nat) : Digits (padded width n) :=
  (digits_zeros _).append fun _ hc => isDigit_natText hc

theorem digitsValue_padded (width n : Nat) : digitsValue (padded width n) = n := by
  rw [padded, digitsValue_zeros_append, digitsValue_natText]

theorem natText_length {width : Nat} (hwidth : 0 < width) (h : n < 10 ^ width) : (natText n).length ≤ width := by
  unfold natText
  split
  · exact hwidth
  · rw [List.length_map, List.length_reverse]
    exact (Nat.digits_length_le_iff (by decide) n).mpr h

theorem padded_length {width : Nat} (hwidth : 0 < width) (h : n < 10 ^ width) : (padded width n).length = width := by
  rw [padded, List.length_append, List.length_replicate]
  have := natText_length hwidth h
  omega

theorem padded_two (h : n < 100) : ∃ a b, padded 2 n = [a, b] :=
  List.length_eq_two.mp (padded_length (by decide) h)

theorem padded_three (h : n < 1000) : ∃ a b c, padded 3 n = [a, b, c] :=
  List.length_eq_three.mp (padded_length (by decide) h)

theorem padded_four (h : n < 10000) : ∃ a b c d, padded 4 n = [a, b, c, d] := by
  have hlength : (padded 4 n).length = 4 := padded_length (by decide) h
  obtain ⟨a, rest, hrest⟩ := List.exists_cons_of_length_eq_add_one hlength
  rw [hrest] at hlength ⊢
  obtain ⟨b, c, d, rfl⟩ := List.length_eq_three.mp (Nat.succ.inj hlength)
  exact ⟨a, b, c, d, rfl⟩

theorem stoi_padded (width : Nat) (hwidth : 0 < width) (hsmall : width ≤ 9) (h : n < 10 ^ width) :
    stoi (padded width n) = .ok (n : Int) := by
  have hlength := padded_length hwidth h
  have hne : padded width n ≠ [] := by
    intro hnil
    rw [hnil, List.length_nil] at hlength
    omega
  rw [stoi_digits (digits_padded width n) hne (by omega), digitsValue_padded]

/-! ### Dates -/

def closingTime : Bytes := ascii "23:59:59"

/-- `DateStorageText`. -/
def dateStorageText (date : Date) : Bytes :=
  if date.isUndefined then ascii "1753-01-01 00:00:00"
  else padded 4 date.civil.year.toNat ++ [Ch.minus] ++ padded 2 date.civil.month ++ [Ch.minus] ++
    padded 2 date.civil.day ++ [Ch.blank] ++ (if date.isClosing then closingTime else ascii "00:00:00")

/-- `static_cast<unsigned>`. -/
def toUnsigned (n : Int) : Nat := (n % 2 ^ 32).toNat

/-- `DateFromStorageText`. -/
def dateFromStorageText (text : Bytes) : Except ColumnError Date :=
  if text.length < 10 then .ok .undefined
  else do
    let year ← stoi (text.take 4)
    let month ← stoi ((text.drop 5).take 2)
    let day ← stoi ((text.drop 8).take 2)
    let month := toUnsigned month
    let day := toUnsigned day
    if year = 1753 ∧ month = 1 ∧ day = 1 then return .undefined
    let normal := Date.fromYmd year month day
    return if closingTime <:+: text then normal.closing else normal

theorem toUnsigned_ofNat (h : n < 2 ^ 32) : toUnsigned n = n := by
  unfold toUnsigned
  omega

/-- What `Date`'s parts are within. -/
theorem civil_bounds {d : Date} (h : d.isUndefined = false) :
    (d.civil.year.toNat : Int) = d.civil.year ∧ d.civil.year.toNat < 10000 ∧ d.civil.month < 100 ∧
        d.civil.day < 100 := by
  have hserial : d.serial ≠ 0 := by simpa [Date.isUndefined] using h
  have hknown := d.known
  have hbounded := d.bounded
  have hlow : epoch ≤ epoch + d.serial / 2 - 1 := by omega
  have hhigh : epoch + d.serial / 2 - 1 ≤ epoch + lastDayIndex := by omega
  obtain ⟨hfirst, hlast⟩ := Calendar.civil_year hlow hhigh
  have hreal := Calendar.isRealDate_civil (epoch + d.serial / 2 - 1)
  rw [← Date.civil] at hfirst hlast hreal
  obtain ⟨⟨⟨-, hmonth⟩, -⟩, hday⟩ := by
    simpa only [Calendar.isRealDate, Bool.and_eq_true, decide_eq_true_eq] using hreal
  have hshort : Calendar.lastDayOfMonth d.civil.year d.civil.month < 100 := by
    unfold Calendar.lastDayOfMonth
    split
    · decide
    · generalize d.civil.month = m at hmonth
      revert m
      decide
  omega

/-- A day's digits, in its text and as numbers. -/
theorem date_digits {d : Date} (h : d.isUndefined = false) : ∃ y₁ y₂ y₃ y₄ m₁ m₂ d₁ d₂,
    (padded 4 d.civil.year.toNat = [y₁, y₂, y₃, y₄] ∧ padded 2 d.civil.month = [m₁, m₂] ∧
      padded 2 d.civil.day = [d₁, d₂]) ∧
    (stoi [y₁, y₂, y₃, y₄] = .ok d.civil.year ∧ stoi [m₁, m₂] = .ok (d.civil.month : Int) ∧
      stoi [d₁, d₂] = .ok (d.civil.day : Int)) ∧
    d.toInvariantString = [y₁, y₂, y₃, y₄, Ch.minus, m₁, m₂, Ch.minus, d₁, d₂] := by
  obtain ⟨hyear, hy, hm, hd⟩ := civil_bounds h
  obtain ⟨y₁, y₂, y₃, y₄, hyears⟩ := padded_four hy
  obtain ⟨m₁, m₂, hmonths⟩ := padded_two hm
  obtain ⟨d₁, d₂, hdays⟩ := padded_two hd
  have hready := stoi_padded 4 (by decide) (by decide) hy
  have hreadm := stoi_padded 2 (by decide) (by decide) hm
  have hreadd := stoi_padded 2 (by decide) (by decide) hd
  rw [hyears, hyear] at hready
  rw [hmonths] at hreadm
  rw [hdays] at hreadd
  refine ⟨y₁, y₂, y₃, y₄, m₁, m₂, d₁, d₂, ⟨hyears, hmonths, hdays⟩, ⟨hready, hreadm, hreadd⟩, ?_⟩
  rw [Date.toInvariantString, h, hyears, hmonths, hdays]
  rfl

theorem firstDay_iff {d : Date} :
    (d.civil.year = 1753 ∧ d.civil.month = 1 ∧ d.civil.day = 1) ↔ d.serial / 2 = 1 := by
  have hdays := Calendar.daysFromCivil_civil (epoch + d.serial / 2 - 1)
  rw [← Date.civil] at hdays
  constructor
  · rintro ⟨hyear, hmonth, hday⟩
    rw [hyear, hmonth, hday, show Calendar.daysFromCivil 1753 1 1 = epoch by decide] at hdays
    omega
  · intro hserial
    have hfirst : epoch + (d.serial : Int) / 2 - 1 = epoch := by omega
    rw [Date.civil, hfirst]
    decide

/-- What follows the day names a closing date or does not. -/
theorem closingTime_infix {a b c d e f g h : UInt8} {time : Bytes}
    (htime : time = closingTime ∨ time = ascii "00:00:00") :
    closingTime <:+: [a, b, c, d, Ch.minus, e, f, Ch.minus, g, h, Ch.blank] ++ time ↔ time = closingTime := by
  rcases htime with rfl | rfl
  · exact iff_of_true (List.suffix_append _ _).isInfix rfl
  · apply iff_of_false _ (by decide)
    dsimp only [Ch.minus, Ch.blank]
    simp [closingTime, ascii, List.infix_cons_iff, Char.toUInt8]

/-- A date's column reads as the date, but the first day's as the undefined date. -/
theorem dateFromStorageText_text (d : Date) :
    dateFromStorageText (dateStorageText d) = .ok (if d.serial / 2 = 1 then .undefined else d) := by
  cases hundefined : d.isUndefined with
  | true =>
    have hserial : d.serial = 0 := by simpa [Date.isUndefined] using hundefined
    obtain rfl : d = Date.undefined := by
      obtain ⟨serial, known, bounded⟩ := d
      dsimp only at hserial
      subst hserial
      rfl
    decide +kernel
  | false =>
    obtain ⟨-, -, hm, hd⟩ := civil_bounds hundefined
    obtain ⟨y₁, y₂, y₃, y₄, m₁, m₂, d₁, d₂, ⟨hyears, hmonths, hdays⟩, ⟨hready, hreadm, hreadd⟩, -⟩ :=
      date_digits hundefined
    generalize htime : (if d.isClosing then closingTime else ascii "00:00:00") = time
    have htext : dateStorageText d = [y₁, y₂, y₃, y₄, Ch.minus, m₁, m₂, Ch.minus, d₁, d₂, Ch.blank] ++ time := by
      rw [dateStorageText, hundefined, hyears, hmonths, hdays, htime]
      rfl
    have hends : closingTime <:+: dateStorageText d ↔ d.isClosing = true := by
      rw [htext, closingTime_infix (by split at htime <;> simp [← htime]), ← htime]
      cases d.isClosing <;> decide
    have hlong : ¬ (dateStorageText d).length < 10 := by
      rw [htext]
      simp
    rw [dateFromStorageText, if_neg hlong]
    simp only [hends]
    rw [htext]
    refine (Fallible.bind_ok hready).trans ((Fallible.bind_ok hreadm).trans ((Fallible.bind_ok hreadd).trans ?_))
    rw [toUnsigned_ofNat (by omega), toUnsigned_ofNat (by omega)]
    simp only [firstDay_iff, Date.fromYmd_civil hundefined]
    by_cases hfirst : d.serial / 2 = 1
    · rw [if_pos hfirst, if_pos hfirst]
      rfl
    · rw [if_neg hfirst, if_neg hfirst]
      cases hclosing : d.isClosing with
      | true => rw [if_pos rfl, Date.closing_normal hclosing]; rfl
      | false => rw [if_neg Bool.false_ne_true, Date.normal_of_not_closing hclosing]; rfl

/-! ### Times of day -/

def Time.undefined : Time := ⟨0, by decide⟩

/-- `FromHms`. -/
def Time.fromHms (hour minute second millisecond : Int) : Time :=
  if h : (0 ≤ hour ∧ hour < 24) ∧ (0 ≤ minute ∧ minute < 60) ∧ (0 ≤ second ∧ second < 60) ∧
      (0 ≤ millisecond ∧ millisecond < 1000) then
    ⟨(hour * 3600000 + minute * 60000 + second * 1000 + millisecond).toNat, by
      simp only [millisecondsPerDay]
      omega⟩
  else Time.undefined

/-- `TimeFromStorageText`. The fraction is brought to three digits. -/
def timeFromStorageText (text : Bytes) : Except ColumnError Time :=
  if text.length < 8 then .ok Time.undefined
  else do
    let hour ← stoi (text.take 2)
    let minute ← stoi ((text.drop 3).take 2)
    let second ← stoi ((text.drop 6).take 2)
    let millisecond ←
      if 9 < text.length ∧ text[8]? = some Ch.dot then
        stoi ((text.drop 9).take 3 ++ List.replicate (3 - (text.drop 9).length) Ch.zero)
      else pure 0
    return Time.fromHms hour minute second millisecond

theorem timeFromStorageText_text (t : Time) : timeFromStorageText t.toInvariantString = .ok t := by
  have hbounded := t.bounded
  simp only [millisecondsPerDay] at hbounded
  have hh : t.milliseconds / 3600000 < 100 := by omega
  have hm : t.milliseconds / 60000 % 60 < 100 := by omega
  have hs : t.milliseconds / 1000 % 60 < 100 := by omega
  have hf : t.milliseconds % 1000 < 1000 := by omega
  obtain ⟨h₁, h₂, hhours⟩ := padded_two hh
  obtain ⟨m₁, m₂, hminutes⟩ := padded_two hm
  obtain ⟨s₁, s₂, hseconds⟩ := padded_two hs
  obtain ⟨f₁, f₂, f₃, hfraction⟩ := padded_three hf
  have hreadh := stoi_padded 2 (by decide) (by decide) hh
  have hreadm := stoi_padded 2 (by decide) (by decide) hm
  have hreads := stoi_padded 2 (by decide) (by decide) hs
  have hreadf := stoi_padded 3 (by decide) (by decide) hf
  rw [hhours] at hreadh
  rw [hminutes] at hreadm
  rw [hseconds] at hreads
  rw [hfraction] at hreadf
  have htext : t.toInvariantString =
      [h₁, h₂, 58, m₁, m₂, 58, s₁, s₂, Ch.dot, f₁, f₂, f₃] := by
    rw [Time.toInvariantString, hhours, hminutes, hseconds, hfraction]
    rfl
  rw [htext, timeFromStorageText, if_neg (by simp)]
  refine (Fallible.bind_ok hreadh).trans ((Fallible.bind_ok hreadm).trans ((Fallible.bind_ok hreads).trans ?_))
  rw [if_pos (by simp)]
  refine (Fallible.bind_ok hreadf).trans ?_
  have hwithin : (0 ≤ ((t.milliseconds / 3600000 : Nat) : Int) ∧ ((t.milliseconds / 3600000 : Nat) : Int) < 24) ∧
      (0 ≤ ((t.milliseconds / 60000 % 60 : Nat) : Int) ∧ ((t.milliseconds / 60000 % 60 : Nat) : Int) < 60) ∧
      (0 ≤ ((t.milliseconds / 1000 % 60 : Nat) : Int) ∧ ((t.milliseconds / 1000 % 60 : Nat) : Int) < 60) ∧
      (0 ≤ ((t.milliseconds % 1000 : Nat) : Int) ∧ ((t.milliseconds % 1000 : Nat) : Int) < 1000) := by omega
  apply congrArg Except.ok
  rw [Time.fromHms, dif_pos hwithin]
  obtain ⟨ms, bounded⟩ := t
  congr 1
  dsimp only
  omega

/-! ### Instants -/

theorem daysSinceFirst_le (d : Date) : d.daysSinceFirst.toNat ≤ lastDayIndex := by
  have := d.bounded
  unfold Date.daysSinceFirst
  split <;> omega

namespace DateTime

def undefined : DateTime := ⟨0, by decide⟩

/-- `Create`. -/
def create (date : Date) (time : Time) : DateTime :=
  if date.isUndefined then undefined
  else
    ⟨date.daysSinceFirst.toNat * millisecondsPerDay + time.milliseconds, by
      have hdays := daysSinceFirst_le date
      have htime := time.bounded
      simp only [millisecondsPerDay, lastDayIndex] at hdays htime ⊢
      omega⟩

end DateTime

/-- `DateTimeStorageText`. -/
def dateTimeStorageText (instant : DateTime) : Bytes :=
  if instant.isUndefined then ascii "1753-01-01 00:00:00.000"
  else instant.date.toInvariantString ++ [Ch.blank] ++ instant.time.toInvariantString

/-- `DateTimeFromStorageText`. -/
def dateTimeFromStorageText (text : Bytes) : Except ColumnError DateTime :=
  if text.length < 19 then .ok DateTime.undefined
  else do
    let year ← stoi (text.take 4)
    let month ← stoi ((text.drop 5).take 2)
    let day ← stoi ((text.drop 8).take 2)
    let time ← timeFromStorageText (text.drop 11)
    return DateTime.create (.fromYmd year (toUnsigned month) (toUnsigned day)) time

/-- A day and a time of day are read as their instant. -/
theorem dateTimeFromStorageText_parts {d : Date} (hdefined : d.isUndefined = false) (t : Time) :
    dateTimeFromStorageText (d.toInvariantString ++ [Ch.blank] ++ t.toInvariantString) =
      .ok (DateTime.create d.normal t) := by
  obtain ⟨-, -, hm, hd⟩ := civil_bounds hdefined
  obtain ⟨y₁, y₂, y₃, y₄, m₁, m₂, d₁, d₂, -, ⟨hready, hreadm, hreadd⟩, hday⟩ := date_digits hdefined
  have htext : d.toInvariantString ++ [Ch.blank] ++ t.toInvariantString =
      [y₁, y₂, y₃, y₄, Ch.minus, m₁, m₂, Ch.minus, d₁, d₂, Ch.blank] ++ t.toInvariantString := by
    rw [hday]
    rfl
  have hlong : ¬ (d.toInvariantString ++ [Ch.blank] ++ t.toInvariantString).length < 19 := by
    have htime := t.bounded
    simp only [millisecondsPerDay] at htime
    rw [htext]
    simp only [List.length_append, List.length_cons, List.length_nil, Time.toInvariantString]
    rw [padded_length (by decide) (by omega), padded_length (by decide) (by omega),
      padded_length (by decide) (by omega), padded_length (by decide) (by omega)]
    simp [ascii]
  rw [dateTimeFromStorageText, if_neg hlong, htext]
  refine (Fallible.bind_ok hready).trans ((Fallible.bind_ok hreadm).trans ((Fallible.bind_ok hreadd).trans ?_))
  refine (Fallible.bind_ok (timeFromStorageText_text t)).trans ?_
  rw [toUnsigned_ofNat (by omega), toUnsigned_ofNat (by omega), Date.fromYmd_civil hdefined]
  rfl

/-- An instant that a date names. -/
def Dated (instant : DateTime) : Prop := instant.milliseconds < (lastDayIndex + 1) * millisecondsPerDay

instance (instant : DateTime) : Decidable (Dated instant) := inferInstanceAs (Decidable (_ < _))

theorem create_dated (d : Date) (t : Time) : Dated (DateTime.create d t) := by
  have hdays := daysSinceFirst_le d
  have htime := t.bounded
  unfold Dated DateTime.create
  split
  · simp [DateTime.undefined]
  · simp only [millisecondsPerDay] at htime ⊢
    omega

/-- A day's number is a 32 bit integer. -/
theorem bmod_day {days : Nat} (h : days ≤ lastDayIndex) : Int.bmod (days : Int) (2 ^ 32) = days := by
  simp only [lastDayIndex] at h
  apply Int.bmod_eq_of_le_mul_two <;> omega

/-- The parts of an instant that a date names. -/
theorem create_parts {instant : DateTime} (hdefined : instant.isUndefined = false) (hdated : Dated instant) :
    instant.date.isUndefined = false ∧ DateTime.create instant.date.normal instant.time = instant := by
  have hdays : instant.milliseconds / millisecondsPerDay ≤ lastDayIndex := by
    unfold Dated at hdated
    simp only [millisecondsPerDay, lastDayIndex] at hdated ⊢
    omega
  have hdate : instant.date.serial = (instant.milliseconds / millisecondsPerDay + 1) * 2 := by
    rw [DateTime.date, hdefined, if_neg Bool.false_ne_true, bmod_day hdays, Date.fromDaysSinceFirst,
      dif_pos ⟨Int.natCast_nonneg _, by exact_mod_cast hdays⟩]
    rfl
  have hnormal : instant.date.normal = instant.date := by
    apply Date.normal_of_not_closing
    simp [Date.isClosing, hdate]
  have hisdefined : instant.date.isUndefined = false := by
    simp [Date.isUndefined, hdate]
  have hsince : instant.date.daysSinceFirst.toNat = instant.milliseconds / millisecondsPerDay := by
    rw [Date.daysSinceFirst, hisdefined, hdate]
    generalize instant.milliseconds / millisecondsPerDay = days
    rw [if_neg Bool.false_ne_true]
    omega
  refine ⟨hisdefined, ?_⟩
  rw [hnormal, DateTime.create, hisdefined, if_neg Bool.false_ne_true]
  obtain ⟨ms, bounded⟩ := instant
  congr 1
  rw [hsince]
  exact Nat.div_add_mod' ms millisecondsPerDay

/-- An instant's column reads as the instant where a date names it, and as another where none
does. -/
theorem dateTimeFromStorageText_text (instant : DateTime) :
    ∃ read, dateTimeFromStorageText (dateTimeStorageText instant) = .ok read ∧
      (read = instant ↔ Dated instant) := by
  cases hundefined : instant.isUndefined with
  | true =>
    have hzero : instant.milliseconds = 0 := by simpa [DateTime.isUndefined] using hundefined
    obtain rfl : instant = DateTime.undefined := by
      obtain ⟨ms, bounded⟩ := instant
      dsimp only at hzero
      subst hzero
      rfl
    exact ⟨DateTime.undefined, by decide +kernel, by decide⟩
  | false =>
    have htext : dateTimeStorageText instant =
        instant.date.toInvariantString ++ [Ch.blank] ++ instant.time.toInvariantString := by
      rw [dateTimeStorageText, hundefined]
      rfl
    rw [htext]
    cases hdate : instant.date.isUndefined with
    | false =>
      refine ⟨_, dateTimeFromStorageText_parts hdate instant.time, ?_, ?_⟩
      · intro h
        rw [← h]
        exact create_dated _ _
      · intro hdated
        exact (create_parts hundefined hdated).2
    | true =>
      have hshort :
          (instant.date.toInvariantString ++ [Ch.blank] ++ instant.time.toInvariantString).length < 19 := by
        have htime := instant.time.bounded
        simp only [millisecondsPerDay] at htime
        rw [Date.toInvariantString, hdate]
        simp only [if_true, List.nil_append, List.length_append, List.length_cons, List.length_nil,
            Time.toInvariantString]
        rw [padded_length (by decide) (by omega), padded_length (by decide) (by omega),
          padded_length (by decide) (by omega), padded_length (by decide) (by omega)]
        simp [ascii]
      refine ⟨DateTime.undefined, by rw [dateTimeFromStorageText, if_pos hshort], ?_, ?_⟩
      · intro h
        rw [← h] at hundefined
        cases hundefined
      · intro hdated
        rw [(create_parts hundefined hdated).1] at hdate
        cases hdate

end Agiru.Storage
