import Agiru.Storage.Identities
import Agiru.Text.Positions
import Agiru.Values.Parsed

/-! What a column is written as, and what is read of it: the value, exactly if its column names it
(`readBack_iff`). -/
namespace Agiru.Storage
open Bytes

/-! ### Codes -/

/-- An ASCII letter in upper case. -/
def upper (c : UInt8) : UInt8 := if 97 ≤ c && c ≤ 122 then c - 32 else c

def isBlank (c : UInt8) : Bool := c = Ch.blank

/-- `NormaliseCode`. -/
def normaliseCode (text : Bytes) : Bytes := ((text.dropWhile isBlank).rdropWhile isBlank).map upper

theorem upper_upper (c : UInt8) : upper (upper c) = upper c :=
  forall_byte (p := fun c => upper (upper c) = upper c) (by decide +kernel) c

theorem isBlank_upper (c : UInt8) : isBlank (upper c) = isBlank c :=
  forall_byte (p := fun c => isBlank (upper c) = isBlank c) (by decide +kernel) c

/-- What was trimmed at both ends begins as it did. -/
theorem dropWhile_trimmed (p : UInt8 → Bool) (text : Bytes) :
    ((text.dropWhile p).rdropWhile p).dropWhile p = (text.dropWhile p).rdropWhile p := by
  cases htrim : (text.dropWhile p).rdropWhile p with
  | nil => rfl
  | cons c rest =>
    obtain ⟨behind, hbehind⟩ := List.rdropWhile_prefix p (text.dropWhile p)
    have hhead : (text.dropWhile p).head? = some c := by
      rw [← hbehind, htrim]
      rfl
    have hnot := List.head?_dropWhile_not p text
    rw [hhead] at hnot
    exact List.dropWhile_cons_of_neg (by simp [hnot])

theorem normaliseCode_nil : normaliseCode [] = [] := rfl

theorem normaliseCode_normaliseCode (text : Bytes) : normaliseCode (normaliseCode text) = normaliseCode text := by
  have hblank : isBlank ∘ upper = isBlank := funext isBlank_upper
  have hupper : upper ∘ upper = upper := funext upper_upper
  have hdrop : ∀ l : Bytes, (l.map upper).dropWhile isBlank = (l.dropWhile isBlank).map upper := by
    intro l
    rw [List.dropWhile_map, hblank]
  have hrdrop : ∀ l : Bytes, (l.map upper).rdropWhile isBlank = (l.rdropWhile isBlank).map upper := by
    intro l
    rw [List.rdropWhile, ← List.map_reverse, hdrop, ← List.map_reverse]
    rfl
  rw [normaliseCode, normaliseCode, hdrop, hrdrop, dropWhile_trimmed, List.rdropWhile_idempotent, List.map_map, hupper]

/-! ### Members -/

/-- `MemberOrdinal`. -/
def memberOrdinal (field : FieldDef) (text : Bytes) : Bytes :=
  if text.all isBlank then
    match field.values.find? fun value => value.name.all isBlank with
    | some value => intText value.ordinal.toInt
    | none => ascii "0"
  else if text.all fun c => c = Ch.minus || isDigit c then text
  else
    let spelled :=
      if 2 ≤ text.length ∧ text.head? = some Ch.doubleQuote ∧ text.getLast? = some Ch.doubleQuote then
        (text.drop 1).dropLast
      else text
    match field.values.find? fun value => sameText value.name spelled || sameText value.caption spelled with
    | some value => intText value.ordinal.toInt
    | none => spelled

theorem intText_digits (n : Int) : (intText n).all (fun c => decide (c = Ch.minus) || isDigit c) = true := by
  rw [List.all_eq_true]
  intro d hd
  rcases List.mem_append.mp hd with hsign | hd
  · split at hsign
    · rw [List.mem_singleton.mp hsign]
      rfl
    · exact absurd hsign List.not_mem_nil
  · rw [isDigit_natText hd, Bool.or_true]

theorem memberOrdinal_intText (field : FieldDef) (n : Int) : memberOrdinal field (intText n) = intText n := by
  obtain ⟨c, rest, hnat⟩ := List.exists_cons_of_ne_nil (natText_ne_nil n.natAbs)
  have hc : c ∈ intText n := by
    rw [intText, hnat]
    exact List.mem_append_right _ List.mem_cons_self
  have hnotBlank : ¬ (intText n).all isBlank = true := by
    intro hall
    have hblank := List.all_eq_true.mp hall c hc
    have hdigit : isDigit c = true := isDigit_natText (hnat ▸ List.mem_cons_self)
    rw [of_decide_eq_true hblank] at hdigit
    cases hdigit
  rw [memberOrdinal, if_neg hnotBlank, if_pos (intText_digits n)]

theorem toInvariantString_ne_blank (d : Decimal) : ¬ d.toInvariantString.all isBlank = true := by
  obtain ⟨whole, fraction, htext, hwhole, hne, -⟩ := toInvariantString_pointed d
  obtain ⟨c, rest, rfl⟩ := List.exists_cons_of_ne_nil hne
  intro hall
  have hblank := List.all_eq_true.mp hall c (by simp [htext, pointed])
  have hdigit := hwhole c List.mem_cons_self
  rw [of_decide_eq_true hblank] at hdigit
  cases hdigit

/-! ### Fields -/

/-- What a field of a type holds. -/
abbrev FieldHolds : FieldType → Type
  | .code => {text : Bytes // normaliseCode text = text}
  | .text | .tableFilter | .blob => Bytes
  | .boolean => Bool
  | .integer | .option | .enum => Int32
  | .bigInteger | .duration => Int64
  | .decimal => Decimal
  | .date => Date
  | .time => Time
  | .dateTime => DateTime
  | .dateFormula => DateFormula
  | .guid | .media | .mediaSet => Guid
  | .recordId => RecordId

/-- `StorageText`, with what `FieldText` adds to it. -/
def storageText : (type : FieldType) → FieldHolds type → Bytes
  | .dateFormula, formula => formula.toStorageText
  | .option, ordinal | .enum, ordinal => intText ordinal.toInt
  | .date, date => dateStorageText date
  | .dateTime, instant => dateTimeStorageText instant
  | .guid, guid => guid.hyphenated
  | .recordId, id => id.toStorageText
  | .code, text => text.1
  | .text, text | .tableFilter, text => text
  | .decimal, d => d.toInvariantString
  | .time, t => t.toInvariantString
  | .integer, n => intText n.toInt
  | .bigInteger, n | .duration, n => intText n.toInt
  | .boolean, b => booleanText b
  | .blob, bytes => ascii "\\x" ++ bytes.flatMap (hexByte false)
  | .media, guid | .mediaSet, guid => guid.toText

/-- `Read` of a GUID's column. -/
def readGuid (field : FieldDef) (text : Bytes) : Except ColumnError Guid :=
  if text = [] then .ok .zero
  else (guidFromText text).mapError fun refusal => .unreadable field.name text refusal.what

def checkedLength (field : FieldDef) (text : Bytes) : Except ColumnError Unit :=
  (Text.checkLength text field.length).mapError .tooLong

/-- `SetFieldText`, in a session's language. -/
def setFieldText (language : Int32) (field : FieldDef) (text : Bytes) :
    (type : FieldType) → Except ColumnError (FieldHolds type)
  | .code => do
    checkedLength field (normaliseCode text)
    return ⟨normaliseCode text, normaliseCode_normaliseCode text⟩
  | .text => do
    checkedLength field text
    return text
  | .decimal =>
    if text.all isBlank then .ok .zero else (Decimal.fromInvariantString text).mapError .decimal
  | .boolean =>
    .ok (text = ascii "t" || text = ascii "true" || text = ascii "1" || text = ascii "Yes" || text = ascii "yes")
  | .integer => (stol text).map Int32.ofInt
  | .bigInteger => (stoll text).map Int64.ofInt
  | .option | .enum => (stoi (memberOrdinal field text)).map Int32.ofInt
  | .date => dateFromStorageText text
  | .time => timeFromStorageText text
  | .dateTime => dateTimeFromStorageText text
  | .guid | .media | .mediaSet => readGuid field text
  | .duration => (stoll text).map Int64.ofInt
  | .dateFormula => .ok (DateFormula.ofColumn language text)
  | .blob => blobFromText text
  | .recordId => do
    match ← RecordId.ofStorageText text with
    | .ok id => return id
    | .error refusal => throw (.unreadable field.name text refusal.what)
  | .tableFilter => .ok text

/-! ### Each type -/

/-- A number in a 32 bit integer's range, and one in a 64 bit integer's. -/
theorem stoi_int32 (n : Int32) : stoi (intText n.toInt) = .ok n.toInt := by
  have := n.le_toInt
  have := n.toInt_lt
  exact ranged_intText (by omega) (by omega)

theorem stol_int32 (n : Int32) : stol (intText n.toInt) = .ok n.toInt := by
  have := n.le_toInt
  have := n.toInt_lt
  exact ranged_intText (by omega) (by omega)

theorem stoll_int64 (n : Int64) : stoll (intText n.toInt) = .ok n.toInt := by
  have := n.le_toInt
  have := n.toInt_lt
  exact ranged_intText (by omega) (by omega)

theorem readGuid_of_ok {field : FieldDef} {text : Bytes} {guid : Guid} (hne : text ≠ [])
    (h : guidFromText text = .ok guid) :
    readGuid field text = .ok guid := by
  rw [readGuid, if_neg hne, h]
  rfl

theorem hyphenated_ne_nil (g : Guid) : g.hyphenated ≠ [] := by
  simp [Guid.hyphenated]

theorem toText_ne_nil (g : Guid) : g.toText ≠ [] := by
  simp [Guid.toText, hyphenated_ne_nil]

/-! ### The round trip -/

/-- A code and a text are within their field's length. -/
def Fits (field : FieldDef) : (type : FieldType) → FieldHolds type → Prop
  | .code, text => Text.checkLength text.1 field.length = .ok ()
  | .text, text => Text.checkLength text field.length = .ok ()
  | _, _ => True

/-- A value that its column names: a date that is not of the first day, an instant before the last
day's end, a date formula whose spelling names its terms, and a record id without a key only if it
is blank, with one only if nothing in it holds the separator and its table's number is not
negative. -/
def Kept : (type : FieldType) → FieldHolds type → Prop
  | .date, date => date.serial / 2 ≠ 1
  | .dateTime, instant => Dated instant
  | .dateFormula, formula => formula.NamesItsTerms
  | .recordId, id => if id.key = [] then id = .empty else id.Separable
  | _, _ => True

theorem checkedLength_of_ok {field : FieldDef} {text : Bytes} (h : Text.checkLength text field.length = .ok ()) :
    checkedLength field text = .ok () := by
  rw [checkedLength, h]
  rfl

theorem setFieldText_iff (language : Int32) (field : FieldDef) (type : FieldType) (value : FieldHolds type)
    (hfits : Fits field type value) :
    setFieldText language field (storageText type value) type = .ok value ↔ Kept type value := by
  cases type with
  | code =>
    obtain ⟨text, hnormal⟩ := value
    have hchecked : checkedLength field text = .ok () := checkedLength_of_ok hfits
    have hread : ∀ read (hread : normaliseCode read = read), read = text →
        (do
          checkedLength field read
          return (⟨read, hread⟩ : FieldHolds .code)) = Except.ok (⟨text, hnormal⟩ : FieldHolds .code) := by
      rintro read hread rfl
      rw [hchecked]
      rfl
    exact iff_of_true (hread _ (normaliseCode_normaliseCode text) hnormal) trivial
  | text =>
    have hchecked : checkedLength field value = .ok () := checkedLength_of_ok hfits
    refine iff_of_true ?_ trivial
    exact Fallible.bind_ok hchecked
  | decimal =>
    refine iff_of_true ?_ trivial
    show (if value.toInvariantString.all isBlank then Except.ok Decimal.zero
      else (Decimal.fromInvariantString value.toInvariantString).mapError ColumnError.decimal) = .ok value
    rw [if_neg (toInvariantString_ne_blank value), fromInvariantString_toInvariantString]
    rfl
  | boolean => cases value <;> exact iff_of_true rfl trivial
  | integer =>
    refine iff_of_true ?_ trivial
    show (stol (intText value.toInt)).map Int32.ofInt = .ok value
    rw [stol_int32]
    exact congrArg Except.ok (Int32.ofInt_toInt value)
  | bigInteger | duration =>
    refine iff_of_true ?_ trivial
    show (stoll (intText value.toInt)).map Int64.ofInt = .ok value
    rw [stoll_int64]
    exact congrArg Except.ok (Int64.ofInt_toInt value)
  | option | enum =>
    refine iff_of_true ?_ trivial
    show (stoi (memberOrdinal field (intText value.toInt))).map Int32.ofInt = .ok value
    rw [memberOrdinal_intText, stoi_int32]
    exact congrArg Except.ok (Int32.ofInt_toInt value)
  | date =>
    show dateFromStorageText (dateStorageText value) = .ok value ↔ value.serial / 2 ≠ 1
    rw [dateFromStorageText_text]
    by_cases hfirst : value.serial / 2 = 1
    · rw [if_pos hfirst]
      refine iff_of_false ?_ (not_not.mpr hfirst)
      intro h
      rw [← Except.ok.inj h] at hfirst
      cases hfirst
    · rw [if_neg hfirst]
      exact iff_of_true rfl hfirst
  | time => exact iff_of_true (timeFromStorageText_text value) trivial
  | dateTime =>
    obtain ⟨read, hread, hiff⟩ := dateTimeFromStorageText_text value
    show dateTimeFromStorageText (dateTimeStorageText value) = .ok value ↔ Dated value
    rw [hread, ← hiff]
    exact ⟨Except.ok.inj, congrArg Except.ok⟩
  | guid => exact iff_of_true (readGuid_of_ok (hyphenated_ne_nil value) (guidFromText_hyphenated value)) trivial
  | media | mediaSet => exact iff_of_true (readGuid_of_ok (toText_ne_nil value) (guidFromText_toText value)) trivial
  | dateFormula =>
    have hiff := (DateFormula.ofColumn_storage language value).2
    exact ⟨fun h => hiff.mp (Except.ok.inj h), fun h => congrArg Except.ok (hiff.mpr h)⟩
  | blob =>
    exact iff_of_true (byteTexts_hex value) trivial
  | tableFilter => exact iff_of_true rfl trivial
  | recordId =>
    show setFieldText language field value.toStorageText .recordId = .ok value ↔
      if value.key = [] then value = .empty else value.Separable
    by_cases hkey : value.key = []
    · have htext : value.toStorageText = [] := if_pos hkey
      rw [htext, if_pos hkey]
      exact ⟨fun h => (Except.ok.inj h).symm, fun h => congrArg Except.ok h.symm⟩
    · rw [if_neg hkey, ← RecordId.ofStorageText_storage hkey]
      constructor
      · intro h
        obtain ⟨read, hread, hid⟩ := Fallible.of_bind h
        rw [hread]
        cases read with
        | ok id => exact congrArg Except.ok (congrArg Except.ok (Except.ok.inj hid))
        | error refusal => cases hid
      · intro h
        exact Fallible.bind_ok h

/-- What is read of a field's column. -/
def readBack (language : Int32) (field : FieldDef) (value : FieldHolds field.type) :
    Except ColumnError (FieldHolds field.type) :=
  setFieldText language field (storageText field.type value) field.type

/-- What is read of a value's column is the value, exactly if its column names it. -/
theorem readBack_iff (language : Int32) (field : FieldDef) (value : FieldHolds field.type)
    (hfits : Fits field field.type value) : readBack language field value = .ok value ↔ Kept field.type value :=
  setFieldText_iff language field field.type value hfits

def nameField : FieldDef := {no := 2, name := ascii "Name", caption := ascii "Name", type := .text, length := 3}

theorem readBack_name : readBack 0 nameField (ascii " a ") = .ok (ascii " a ") :=
  (readBack_iff 0 nameField (ascii " a ") (show Text.checkLength (ascii " a ") 3 = .ok () by decide)).mpr trivial

def linkField : FieldDef := {no := 3, name := ascii "Link", caption := ascii "Link", type := .recordId}
def momentField : FieldDef := {no := 4, name := ascii "Moment", caption := ascii "Moment", type := .dateTime}
def dayField : FieldDef := {no := 5, name := ascii "Day", caption := ascii "Day", type := .date}
def termsField : FieldDef := {no := 6, name := ascii "Terms", caption := ascii "Terms", type := .dateFormula}

/-- A day and two weeks, written apart. -/
def apart : List Token := [⟨.amount, none, [], .day⟩, ⟨.amount, none, ascii "2", .week⟩]

/-- A key value that holds the separator, the instant after the last day, the first day's closing
date, and the formula of `D 2W`. -/
theorem readBack_loses :
    readBack 0 linkField ⟨18, ascii "Customer", [[Ch.unitSeparator]]⟩ ≠
      .ok ⟨18, ascii "Customer", [[Ch.unitSeparator]]⟩ ∧
    readBack 0 momentField ⟨(lastDayIndex + 1) * millisecondsPerDay, by decide⟩ ≠
      .ok ⟨(lastDayIndex + 1) * millisecondsPerDay, by decide⟩ ∧
    readBack 0 dayField ⟨3, .inr (by decide), by decide⟩ ≠ .ok ⟨3, .inr (by decide), by decide⟩ ∧
    ∃ formula, DateFormula.fromText 0 (ascii "D 2W") = .ok formula ∧
        readBack 0 termsField formula ≠ .ok formula := by
  refine ⟨?_, ?_, ?_, ?_⟩
  · intro h
    have hkept := (setFieldText_iff 0 linkField .recordId _ trivial).mp h
    exact hkept.key _ List.mem_cons_self List.mem_cons_self
  · intro h
    have hkept : Dated _ := (setFieldText_iff 0 momentField .dateTime _ trivial).mp h
    exact absurd hkept (by decide)
  · intro h
    exact absurd rfl ((setFieldText_iff 0 dayField .date _ trivial).mp h)
  · have htokens : tokens (DateFormula.reading 0 (ascii "D 2W")).1 (DateFormula.reading 0 (ascii "D 2W")).2 =
        .ok apart := by decide
    refine ⟨_, DateFormula.fromText_of_tokens htokens, ?_⟩
    intro h
    have hkept : (tokens (rendered apart .invariant) .invariant).map (List.map Token.term) =
        .ok (apart.map Token.term) :=
      (setFieldText_iff 0 termsField .dateFormula _ trivial).mp h
    exact absurd hkept (by decide)

end Agiru.Storage
