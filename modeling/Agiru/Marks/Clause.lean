import Agiru.Filter.Columns
import Agiru.Record.Order
import Agiru.View.Text

/-! The columns of a primary key, and what the database reads of the texts that a mark is bound as.

A column holds what the storage text of its value reads as. Of the spellings of days and times that
the database takes, those are here that the program writes.

The marks of a record variable, and the clause that they are to the database.

A mark is a primary key's texts behind one another. The clause takes it apart again and asks each of
the key's columns for its text; `narrowMarks_selects` says what it is true of, mark by mark. -/
namespace Agiru.Marks
open Bytes Agiru.Filter Storage

variable {d : Date}

/-! ### Days and times -/

/-- `YYYY-MM-DD`, as the day's number. -/
def readDay : Bytes → Option Int
  | [y₁, y₂, y₃, y₄, a, m₁, m₂, b, d₁, d₂] =>
    let year := digitsValue [y₁, y₂, y₃, y₄]
    let month := digitsValue [m₁, m₂]
    let day := digitsValue [d₁, d₂]
    if [y₁, y₂, y₃, y₄, m₁, m₂, d₁, d₂].all isDigit && a = Ch.minus && b = Ch.minus &&
        Calendar.isRealDate year month day then
      some (Calendar.daysFromCivil year month day - epoch)
    else none
  | _ => none

/-- Nothing, or a point and three digits. -/
def readFraction : Bytes → Option Nat
  | [] => some 0
  | [point, f₁, f₂, f₃] => if point = Ch.dot && [f₁, f₂, f₃].all isDigit then some (digitsValue [f₁, f₂, f₃])
      else none
  | _ => none

/-- `HH:MM:SS[.mmm]`, in milliseconds. -/
def readTime : Bytes → Option Nat
  | h₁ :: h₂ :: a :: m₁ :: m₂ :: b :: s₁ :: s₂ :: fraction =>
    let hour := digitsValue [h₁, h₂]
    let minute := digitsValue [m₁, m₂]
    let second := digitsValue [s₁, s₂]
    if [h₁, h₂, m₁, m₂, s₁, s₂].all isDigit && a = 58 && b = 58 && hour < 24 && minute < 60 && second < 60 then
      (readFraction fraction).map (hour * 3600000 + minute * 60000 + second * 1000 + ·)
    else none
  | _ => none

/-- A day, and a time behind a blank or a `T`, with a `Z` or without; a day alone is its midnight. -/
def readInstant (text : Bytes) : Option Int := do
  let day ← readDay (text.take 10)
  match text.drop 10 with
  | [] => return day * millisecondsPerDay
  | c :: time =>
    if c = Ch.blank || c = 84 then
      let time ← readTime (if time.getLast? = some 90 then time.dropLast else time)
      return day * millisecondsPerDay + time
    else none

theorem digits_pair {n a b : _} (h : padded 2 n = [a, b]) :
    isDigit a = true ∧ isDigit b = true ∧ digitsValue [a, b] = n := by
  have hdigits := h ▸ digits_padded 2 n
  exact ⟨hdigits a (by simp), hdigits b (by simp), h ▸ digitsValue_padded 2 n⟩

theorem readDay_text (h : d.isUndefined = false) : readDay d.toInvariantString = some d.daysSinceFirst := by
  obtain ⟨hyear, hy, hm, hd⟩ := civil_bounds h
  obtain ⟨y₁, y₂, y₃, y₄, m₁, m₂, d₁, d₂, ⟨hyears, hmonths, hdays⟩, -, htext⟩ := date_digits h
  have hydigits := hyears ▸ digits_padded 4 d.civil.year.toNat
  have hyvalue : digitsValue [y₁, y₂, y₃, y₄] = d.civil.year.toNat := hyears ▸ digitsValue_padded 4 _
  obtain ⟨hm₁, hm₂, hmvalue⟩ := digits_pair hmonths
  obtain ⟨hd₁, hd₂, hdvalue⟩ := digits_pair hdays
  have hreal := Calendar.isRealDate_civil (epoch + d.serial / 2 - 1)
  have hnumber := Calendar.daysFromCivil_civil (epoch + d.serial / 2 - 1)
  rw [← Date.civil] at hreal hnumber
  have hall : [y₁, y₂, y₃, y₄, m₁, m₂, d₁, d₂].all isDigit = true := by
    simp [hydigits y₁, hydigits y₂, hydigits y₃, hydigits y₄, hm₁, hm₂, hd₁, hd₂]
  have hday : epoch + (d.serial : Int) / 2 - 1 - epoch = d.daysSinceFirst := by
    rw [Date.daysSinceFirst, h, if_neg Bool.false_ne_true]
    omega
  rw [htext, readDay, hyvalue, hmvalue, hdvalue, hyear, hreal, hnumber, hall, hday]
  simp

theorem readTime_text (t : Time) : readTime t.toInvariantString = some t.milliseconds := by
  have hbounded := t.bounded
  simp only [millisecondsPerDay] at hbounded
  obtain ⟨h₁, h₂, hhours⟩ := padded_two (n := t.milliseconds / 3600000) (by omega)
  obtain ⟨m₁, m₂, hminutes⟩ := padded_two (n := t.milliseconds / 60000 % 60) (by omega)
  obtain ⟨s₁, s₂, hseconds⟩ := padded_two (n := t.milliseconds / 1000 % 60) (by omega)
  obtain ⟨f₁, f₂, f₃, hfraction⟩ := padded_three (n := t.milliseconds % 1000) (by omega)
  have hfdigits := hfraction ▸ digits_padded 3 (t.milliseconds % 1000)
  have hfvalue : digitsValue [f₁, f₂, f₃] = t.milliseconds % 1000 := hfraction ▸ digitsValue_padded 3 _
  obtain ⟨hh₁, hh₂, hhvalue⟩ := digits_pair hhours
  obtain ⟨hm₁, hm₂, hmvalue⟩ := digits_pair hminutes
  obtain ⟨hs₁, hs₂, hsvalue⟩ := digits_pair hseconds
  have htext : t.toInvariantString = [h₁, h₂, 58, m₁, m₂, 58, s₁, s₂, Ch.dot, f₁, f₂, f₃] := by
    rw [Time.toInvariantString, hhours, hminutes, hseconds, hfraction]
    rfl
  have hhour : t.milliseconds / 3600000 < 24 := by omega
  have hminute : t.milliseconds / 60000 % 60 < 60 := by omega
  have hsecond : t.milliseconds / 1000 % 60 < 60 := by omega
  have hsum : t.milliseconds / 3600000 * 3600000 + t.milliseconds / 60000 % 60 * 60000 +
      t.milliseconds / 1000 % 60 * 1000 + t.milliseconds % 1000 = t.milliseconds := by omega
  rw [htext, readTime, readFraction, hhvalue, hmvalue, hsvalue, hfvalue]
  simp [hh₁, hh₂, hm₁, hm₂, hs₁, hs₂, hfdigits f₁, hfdigits f₂, hfdigits f₃, hhour, hminute, hsecond, hsum]

theorem day_length (h : d.isUndefined = false) : d.toInvariantString.length = 10 := by
  obtain ⟨-, hy, hm, hd⟩ := civil_bounds h
  have hyears : (padded 4 d.civil.year.toNat).length = 4 := padded_length (by decide) hy
  have hmonths : (padded 2 d.civil.month).length = 2 := padded_length (by decide) hm
  have hdays : (padded 2 d.civil.day).length = 2 := padded_length (by decide) hd
  rw [Date.toInvariantString, if_neg (by simp [h])]
  simp only [List.length_append, List.length_singleton, hyears, hmonths, hdays]

/-- A day, and what stands behind it. -/
theorem readInstant_day (h : d.isUndefined = false) (behind : Bytes) : readInstant (d.toInvariantString ++ behind) =
      match behind with
      | [] => some (d.daysSinceFirst * millisecondsPerDay)
      | c :: time =>
        if c = Ch.blank || c = 84 then
          (readTime (if time.getLast? = some 90 then time.dropLast else time)).map
            fun time : Nat => d.daysSinceFirst * millisecondsPerDay + time
        else none := by
  have htake : (d.toInvariantString ++ behind).take 10 = d.toInvariantString := by
    rw [← day_length h, List.take_left]
  have hdrop : (d.toInvariantString ++ behind).drop 10 = behind := by
    rw [← day_length h, List.drop_left]
  rw [readInstant, htake, hdrop, readDay_text h]
  cases behind with
  | nil => rfl
  | cons c time =>
    simp only [Option.bind_eq_bind, Option.bind_some]
    split
    · cases readTime (if time.getLast? = some 90 then time.dropLast else time) <;> rfl
    · rfl

/-- The last character of a time of day is a digit. -/
theorem time_last (t : Time) : t.toInvariantString.getLast? ≠ some 90 := by
  obtain ⟨f₁, f₂, f₃, hfraction⟩ := padded_three (n := t.milliseconds % 1000) (by omega)
  have hdigit : isDigit f₃ = true := (hfraction ▸ digits_padded 3 (t.milliseconds % 1000)) f₃ (by simp)
  rw [Time.toInvariantString, hfraction, List.getLast?_append]
  simp only [List.getLast?_cons_cons, List.getLast?_singleton, Option.some_or]
  intro h
  rw [Option.some.inj h] at hdigit
  cases hdigit

theorem readInstant_blank (h : d.isUndefined = false) (t : Time) :
    readInstant (d.toInvariantString ++ [Ch.blank] ++ t.toInvariantString) =
      some (d.daysSinceFirst * millisecondsPerDay + t.milliseconds) := by
  rw [List.append_assoc, readInstant_day h]
  simp [time_last, readTime_text]

theorem readInstant_zoned (h : d.isUndefined = false) (t : Time) :
    readInstant (d.toInvariantString ++ ascii "T" ++ t.toInvariantString ++ ascii "Z") =
      some (d.daysSinceFirst * millisecondsPerDay + t.milliseconds) := by
  have hzone : (t.toInvariantString ++ ascii "Z").getLast? = some 90 := by
    rw [List.getLast?_append]
    rfl
  have htime : (t.toInvariantString ++ ascii "Z").dropLast = t.toInvariantString := List.dropLast_concat
  have hbehind : ascii "T" ++ (t.toInvariantString ++ ascii "Z") = 84 :: (t.toInvariantString ++ ascii "Z") := rfl
  rw [List.append_assoc, List.append_assoc, hbehind, readInstant_day h]
  dsimp only
  rw [if_pos (by decide), if_pos hzone, htime, readTime_text]
  rfl

/-! ### The columns -/

/-- A column that holds what its stored text reads as. -/
def readAs {α : Type} [Ord α] (read : Bytes → Option α) (stored : Bytes) : Filter.Column :=
  { compare := fun bound => do return Ord.compare (← read stored) (← read bound), text := stored }

/-- A column of texts. -/
def collated (collation : Bytes → Bytes → Ordering) (stored : Bytes) : Filter.Column :=
  { compare := fun bound => some (collation stored bound), text := stored }

def readGuid (text : Bytes) : Option Bytes := (guidFromText text).toOption.map (·.bytes)

def readBinary (text : Bytes) : Option Bytes := (blobFromText text).toOption

/-- A field's column. -/
def keyColumn (collation : Bytes → Bytes → Ordering) (field : FieldDef) (value : Value) : Filter.Column :=
  match field.type with
  | .date => readAs readInstant (dateStorageText value.asDate)
  | .time => readAs readTime value.asTime.toInvariantString
  | .dateTime => readAs readInstant (dateTimeStorageText value.asDateTime)
  | .duration => readAs (readInteger (-2 ^ 63) (2 ^ 63 - 1)) (intText value.number)
  | .guid => readAs readGuid value.asGuid.hyphenated
  | .media | .mediaSet => readAs readGuid value.asGuid.toText
  | .blob => readAs readBinary (ascii "\\x" ++ value.characters.flatMap (hexByte false))
  | .recordId => collated collation value.asRecordId.toStorageText
  | .dateFormula => collated collation value.asDateFormula.stored
  | _ => Filter.column collation field value

/-- Conditions on the columns of a key. -/
abbrev MarkSql := List (FieldDef × List (List Condition))

/-- `Mark(Boolean)`. -/
def setMark {table : TableDef} (state : RecordState table) (record : Record) (mark : Bool) : RecordState table :=
  let key := markKey table record
  let marks := if mark then insert key state.marks else state.marks.erase key
  let changed := if mark then key ∉ state.marks else key ∈ state.marks
  if changed && state.markedOnly then {View.selectionChanged state with marks} else {state with marks}

/-- The conditions that fields have values, from a placeholder on. -/
def conditions : List FieldDef → List Bytes → Nat → MarkSql × List Bytes
  | field :: fields, value :: values, next =>
    let clause := whereClause field [[{ value }]] next
    let (others, behind) := conditions fields values (next + clause.binds.length)
    if clause.sql = [] then (others, behind) else ((field, clause.sql) :: others, clause.binds ++ behind)
  | _, _, _ => ([], [])

/-- `MarkClause`: no conditions, where the mark has not as many values as the key has fields. -/
def markClause (table : TableDef) (mark : Bytes) (next : Nat) : MarkSql × List Bytes :=
  let values := mark.splitOn Ch.unitSeparator
  if values.length ≠ table.primaryKey.length then ([], []) else conditions table.keyColumns values next

/-- `NarrowMarks`: the alternatives, none of them is `FALSE`. -/
def narrowMarks (table : TableDef) : List Bytes → Nat → List MarkSql × List Bytes
  | [], _ => ([], [])
  | mark :: marks, next =>
    let (one, binds) := markClause table mark next
    let (others, behind) := narrowMarks table marks (next + binds.length)
    (if one = [] then others else one :: others, binds ++ behind)

/-- Whether the conditions of a mark hold of a row, of these columns, in a query with these bound texts. -/
def MarkSql.holds (columns : FieldDef → Filter.Column) (binds : List Bytes) (sql : MarkSql) : Option Bool :=
  (sql.mapM fun condition => Filter.holds (columns condition.1) binds condition.2).map (·.all id)

/-- Whether the clause holds. -/
def selects (columns : FieldDef → Filter.Column) (binds : List Bytes) (sql : List MarkSql) : Option Bool :=
  (sql.mapM (MarkSql.holds columns binds)).map (·.any id)

/-! ### What a mark asks -/

/-- Whether a column has a text, as the text is bound. -/
def equals (column : Filter.Column) (field : FieldDef) (text : Bytes) : Option Bool :=
  (column.compare (boundText field text)).map (· = .eq)

/-- Whether the columns have the texts. -/
def equalAll (columns : FieldDef → Filter.Column) (fields : List FieldDef) (values : List Bytes) : Option Bool :=
  ((fields.zip values).mapM fun asked => equals (columns asked.1) asked.1 asked.2).map (·.all id)

/-- Whether a row is the marked one. -/
def isMarked (columns : FieldDef → Filter.Column) (table : TableDef) (mark : Bytes) : Option Bool :=
  let values := mark.splitOn Ch.unitSeparator
  if values.length ≠ table.primaryKey.length then some false else equalAll columns table.keyColumns values

variable {columns : FieldDef → Filter.Column} {table : TableDef}

theorem equal_holds (column : Filter.Column) (field : FieldDef) (value : Bytes) (before after : List Bytes) :
    Filter.holds column (before ++ (boundText field value :: after))
      (whereClause field [[{ value }]] (before.length + 1)).sql = equals column field value := by
  have hbound : (before ++ (boundText field value :: after))[before.length]? = some (boundText field value) := by
    rw [List.getElem?_append_right (Nat.le_refl _), Nat.sub_self]
    rfl
  have hcondition : (Condition.compares .equal (before.length + 1)).holds column
      (before ++ (boundText field value :: after)) = equals column field value := by
    rw [Condition.holds, Nat.add_sub_cancel, hbound]
    cases h : column.compare (boundText field value) <;> simp [h, equals, Operator.accepts]
  show Filter.holds column _ [[Condition.compares .equal (before.length + 1)]] = _
  rw [Filter.holds, if_neg (List.cons_ne_nil _ _), List.mapM_cons, allHold, if_neg (List.cons_ne_nil _ _),
    List.mapM_cons, hcondition]
  cases equals column field value <;> simp

theorem conditions_cons (field : FieldDef) (fields : List FieldDef) (value : Bytes) (values : List Bytes)
    (next : Nat) :
    conditions (field :: fields) (value :: values) next =
      ((field, (whereClause field [[{ value }]] next).sql) :: (conditions fields values (next + 1)).1,
        boundText field value :: (conditions fields values (next + 1)).2) := by
  have hsql : (whereClause field [[{ value }]] next).sql ≠ [] := List.cons_ne_nil _ _
  rw [conditions]
  dsimp only
  rw [if_neg hsql]
  rfl

theorem conditions_holds (fields : List FieldDef) (values : List Bytes) (before after : List Bytes) :
    MarkSql.holds columns (before ++ ((conditions fields values (before.length + 1)).2 ++ after))
      (conditions fields values (before.length + 1)).1 = equalAll columns fields values := by
  unfold MarkSql.holds equalAll
  congr 1
  induction fields generalizing values before with
  | nil => rfl
  | cons field fields ih =>
    cases values with
    | nil => rfl
    | cons value values =>
      obtain ⟨others, behind, hothers⟩ : ∃ others behind,
          conditions fields values (before.length + 2) = (others, behind) := ⟨_, _, rfl⟩
      have hstep := conditions_cons field fields value values (before.length + 1)
      rw [hothers] at hstep
      have hrest := ih values (before ++ [boundText field value])
      rw [List.length_append, List.length_singleton, hothers, List.append_assoc, List.singleton_append] at hrest
      rw [hstep, List.zip_cons_cons, List.mapM_cons, List.mapM_cons]
      dsimp only at hrest ⊢
      rw [List.cons_append, equal_holds, hrest]

theorem markClause_holds (columns : FieldDef → Filter.Column) (mark : Bytes) (before after : List Bytes)
    (h : (markClause table mark (before.length + 1)).1 ≠ []) :
    MarkSql.holds columns (before ++ ((markClause table mark (before.length + 1)).2 ++ after))
      (markClause table mark (before.length + 1)).1 = isMarked columns table mark := by
  unfold markClause isMarked at *
  dsimp only at *
  split
  · next hvalues => exact absurd (by rw [if_pos hvalues]) h
  · exact conditions_holds _ _ before after

/-- A mark without conditions selects nothing: every mark has a text, so what has as many has a key. -/
theorem isMarked_of_lost {mark : Bytes} {next : Nat}
    (h : (markClause table mark next).1 = []) : isMarked columns table mark = some false := by
  unfold markClause at h
  unfold isMarked
  dsimp only at *
  split
  · rfl
  · next hvalues =>
    rw [if_neg hvalues] at h
    have hfields : table.keyColumns ≠ [] := by
      intro hnil
      rw [← table.keyColumns_no, hnil, List.map_nil, List.length_nil, not_not, List.length_eq_zero_iff] at hvalues
      exact List.splitOn_ne_nil Ch.unitSeparator mark hvalues
    obtain ⟨field, fields, hfields⟩ := List.exists_cons_of_ne_nil hfields
    obtain ⟨value, values, hsplit⟩ := List.exists_cons_of_ne_nil (List.splitOn_ne_nil Ch.unitSeparator mark)
    rw [hfields, hsplit] at h
    rw [conditions_cons] at h
    cases h

/-- **The clause is true of a row, if one of the marks asks for it.** -/
theorem narrowMarks_selects (marks before after : List Bytes) :
    selects columns (before ++ ((narrowMarks table marks (before.length + 1)).2 ++ after))
      (narrowMarks table marks (before.length + 1)).1 =
        (marks.mapM (isMarked columns table)).map (·.any id) := by
  induction marks generalizing before with
  | nil => rfl
  | cons mark marks ih =>
    obtain ⟨one, binds, hone⟩ : ∃ one binds, markClause table mark (before.length + 1) = (one, binds) :=
        ⟨_, _, rfl⟩
    obtain ⟨others, behind, hothers⟩ : ∃ others behind,
        narrowMarks table marks (before.length + 1 + binds.length) = (others, behind) := ⟨_, _, rfl⟩
    have hstep : narrowMarks table (mark :: marks) (before.length + 1) =
        (if one = [] then others else one :: others, binds ++ behind) := by
      rw [narrowMarks, hone]
      dsimp only
      rw [hothers]
    have hrest := ih (before ++ binds)
    rw [List.length_append, Nat.add_right_comm, hothers, List.append_assoc] at hrest
    rw [hstep, List.mapM_cons]
    dsimp only at hrest ⊢
    rw [List.append_assoc]
    split
    · next hnil =>
      rw [isMarked_of_lost (by rw [hone]; exact hnil), hrest]
      cases marks.mapM (isMarked columns table) <;> rfl
    · next hsome =>
      have hholds := markClause_holds columns mark before (behind ++ after) (by rw [hone]; exact hsome)
      rw [hone] at hholds
      unfold selects at hrest ⊢
      rw [List.mapM_cons, hholds]
      cases isMarked columns table mark with
      | none => rfl
      | some b =>
        simp only [Option.bind_eq_bind, Option.bind_some]
        cases hall : others.mapM (MarkSql.holds columns (before ++ (binds ++ (behind ++ after)))) with
        | none =>
          rw [hall] at hrest
          cases hmarks : marks.mapM (isMarked columns table) with
          | none => rfl
          | some bs => rw [hmarks] at hrest; cases hrest
        | some bs =>
          rw [hall] at hrest
          cases hmarks : marks.mapM (isMarked columns table) with
          | none => rw [hmarks] at hrest; cases hrest
          | some cs =>
            rw [hmarks] at hrest
            have hany : bs.any id = cs.any id := by simpa using hrest
            simp [hany]

end Agiru.Marks
