import Agiru.Marks.Clause

/-! What a mark's text says of one field of the key, in memory and to the database.

`Agrees` is what the marks rely on, of a marked value and a row's; `Fits` says, type by type, of which
values it is true (`agrees_iff_fits`). -/
namespace Agiru.Marks
open Bytes Agiru.Filter
open Storage hiding memberOrdinal memberOrdinal_intText

/-- A value of a field of a type. -/
def isOf : FieldType → Value → Bool
  | .boolean, .boolean _ | .option, .option _ | .enum, .option _ | .integer, .integer _ |
    .bigInteger, .bigInteger _ | .decimal, .decimal _ | .date, .date _ | .time, .time _ |
    .dateTime, .dateTime _ | .duration, .duration _ | .text, .text _ | .code, .code _ |
    .guid, .guid _ | .recordId, .recordId _ | .dateFormula, .dateFormula _ | .blob, .blob _ |
    .tableFilter, .tableFilter _ | .media, .media _ | .mediaSet, .mediaSet _ => true
  | _, _ => false

/-- Values that a field can hold: of its type, codes as they are normalised, and formulas whose stored
text is packed where their shown one is not blank, and never packed. -/
structure Held (field : FieldDef) (values : Value → Prop) : Prop where
  typed : ∀ v, values v → isOf field.type v = true
  code : ∀ v, values v → field.type = .code → normaliseCode v.characters = v.characters
  formula : ∀ v, values v → field.type = .dateFormula →
    (v.asDateFormula.shown = [] ∧ v.asDateFormula.stored = []) ∨
      (v.asDateFormula.shown ≠ [] ∧ isPacked v.asDateFormula.stored = true ∧
        isPacked v.asDateFormula.shown = false)

/-- The text of a value in a field. -/
def valueText (field : FieldDef) (value : Value) : Bytes := fieldText (fun _ => value) field

/-- Whether two values are equal in a field. -/
def equalIn (field : FieldDef) (v w : Value) : Bool := compareField (fun _ => v) (fun _ => w) field = .eq

/-- The text of a marked value is the text of a row's, and the column has it, just where the two are
equal. -/
def Agrees (collation : Bytes → Bytes → Ordering) (field : FieldDef) (v w : Value) : Prop :=
  (valueText field v = valueText field w ↔ equalIn field v w = true) ∧
    equals (keyColumn collation field w) field (valueText field v) = some (equalIn field v w)

/-- The instant that a column holds, where it has a day. -/
def heldInstant (instant : DateTime) : Option Int :=
  if instant.isUndefined then some 0
  else if instant.date.isUndefined then none
  else some (instant.date.daysSinceFirst * millisecondsPerDay + instant.time.milliseconds)

/-- The values that a mark tells apart. -/
def Fits (collation : Bytes → Bytes → Ordering) (field : FieldDef) (values : Value → Prop) : Prop :=
  match field.type with
  | .text | .code | .tableFilter =>
    ∀ v w, values v → values w → collation w.characters v.characters = .eq → v.characters = w.characters
  | .decimal =>
    ∀ v w, values v → values w → v.asDecimal.compare w.asDecimal = .eq →
      v.asDecimal.toInvariantString = w.asDecimal.toInvariantString
  | .option | .enum =>
    ∀ v, values v → readInteger (-2 ^ 31) (2 ^ 31 - 1) (memberOrdinal field (memberText field v.ordinal)) =
      some v.ordinal.toInt
  | .date =>
    (∀ v, values v → v.asDate.isClosing = false) ∧
      ∀ v w, values v → values w → v.asDate.isUndefined = true → w.asDate.serial ≠ 2
  | .dateTime =>
    (∀ v, values v → (heldInstant v.asDateTime).isSome) ∧
      ∀ v w, values v → values w → heldInstant v.asDateTime = heldInstant w.asDateTime → v.number = w.number
  | .recordId => ∀ v, values v → v.asRecordId.key = []
  | .dateFormula => ∀ v, values v → v.asDateFormula.shown = []
  | _ => True

section
variable {collation : Bytes → Bytes → Ordering} {field : FieldDef} {v w : Value}

/-- A column that compares what it reads: the text alone decides. -/
theorem agrees_iff_text {α : Type} (read : Bytes → Option α) {order : α → α → Ordering}
    (horder : ∀ a b, order a b = .eq ↔ a = b) {a b : α}
    (hcompare : (keyColumn collation field w).compare (boundText field (valueText field v)) =
      (read (boundText field (valueText field v))).map (order b))
    (hread : read (boundText field (valueText field v)) = some a) (hequal : equalIn field v w = true ↔ a = b) :
    Agrees collation field v w ↔ (valueText field v = valueText field w ↔ a = b) := by
  have hequals : equals (keyColumn collation field w) field (valueText field v) = some (equalIn field v w) := by
    rw [equals, hcompare, hread, Option.map_some, Option.map_some]
    congr 1
    rw [Bool.eq_iff_iff, decide_eq_true_iff, horder, hequal, eq_comm]
  rw [Agrees, and_iff_left hequals, hequal]

/-- Types without an order of their own are compared by their texts. -/
theorem agrees_iff_equals (hequal : equalIn field v w = decide (valueText field v = valueText field w)) :
    Agrees collation field v w ↔ equals (keyColumn collation field w) field (valueText field v) =
      some (decide (valueText field v = valueText field w)) := by
  rw [Agrees, hequal, decide_eq_true_iff, and_iff_right Iff.rfl]

theorem readAs_compare {α : Type} [Ord α] {read : Bytes → Option α} {stored : Bytes} {b : α}
    (h : read stored = some b) (bound : Bytes) :
    (readAs read stored).compare bound = (read bound).map (Ord.compare b) := by
  unfold readAs
  dsimp only
  rw [h]
  cases read bound <;> rfl

theorem intText_ne_nil (n : Int) : intText n ≠ [] := List.append_ne_nil_of_right_ne_nil _ (natText_ne_nil _)

theorem intText_injective {m n : Int} (h : intText m = intText n) : m = n := by
  have hm : m.natAbs = n.natAbs ∧ decide (m < 0) = decide (n < 0) := by
    have hs := congrArg signed h
    rw [signed_intText, signed_intText, Prod.mk.injEq] at hs
    exact ⟨natText_injective hs.2, hs.1⟩
  have hsign : m < 0 ↔ n < 0 := decide_eq_decide.mp hm.2
  omega

theorem compare_eq_iff {α : Type} [Ord α] [Std.LawfulEqOrd α] (a b : α) : Ord.compare a b = .eq ↔ a = b :=
  Std.LawfulEqCmp.compare_eq_iff_eq

/-! ### Numbers -/

theorem integer_bounds (h : isOf .integer v = true) : -2 ^ 31 ≤ v.number ∧ v.number ≤ 2 ^ 31 - 1 := by
  cases v with
  | integer n => exact ⟨n.le_toInt, Int.le_sub_one_of_lt n.toInt_lt⟩
  | _ => cases h

/-- A number's text is bound as it is, and read as the number. -/
theorem agrees_number {low high : Int} (hbounds : low ≤ v.number ∧ v.number ≤ high)
    (htype : field.type = .integer ∨ field.type = .bigInteger ∨ field.type = .duration)
    (hcompare : ∀ bound, (keyColumn collation field w).compare bound =
      (readInteger low high bound).map (Ord.compare w.number)) : Agrees collation field v w := by
  have hsame : intText v.number = intText w.number ↔ v.number = w.number := ⟨intText_injective, congrArg _⟩
  have htext : ∀ v, valueText field v = intText v.number := fun v => by
    rcases htype with h | h | h <;> rw [valueText, fieldText, h]
  have hbound : boundText field (intText v.number) = intText v.number :=
    boundText_plain (by rcases htype with h | h | h <;> simp [byMember, h])
      (by rcases htype with h | h | h <;> simp [h]) (intText_ne_nil _)
  rw [agrees_iff_text (readInteger low high) compare_eq_iff (a := v.number) (b := w.number), htext, htext]
  · exact hsame
  · exact hcompare _
  · rw [htext, hbound, readInteger_intText hbounds.1 hbounds.2]
  · rcases htype with h | h | h <;> simp [equalIn, compareField, fieldText, h, hsame]

theorem agrees_integer (htype : field.type = .integer) (hv : isOf .integer v = true) :
    Agrees collation field v w :=
  agrees_number (integer_bounds hv) (.inl htype) fun _ => by simp only [keyColumn, column, htype]

theorem agrees_bigInteger (htype : field.type = .bigInteger) : Agrees collation field v w :=
  agrees_number (number_bounds v) (.inr (.inl htype)) fun _ => by simp only [keyColumn, column, htype]

theorem agrees_duration (htype : field.type = .duration) : Agrees collation field v w := by
  have hbounds := number_bounds w
  refine agrees_number (number_bounds v) (.inr (.inr htype)) fun bound => ?_
  rw [keyColumn, htype]
  exact readAs_compare (readInteger_intText hbounds.1 hbounds.2) bound

theorem agrees_boolean (htype : field.type = .boolean) (hv : isOf .boolean v = true)
    (hw : isOf .boolean w = true) :
    Agrees collation field v w := by
  have htext : ∀ v, valueText field v = booleanText (decide (v.number ≠ 0)) := fun v => by
    rw [valueText, fieldText, htype]
  have hread : ∀ b, readBoolean (boundText field (booleanText b)) = some b := by
    intro b
    rw [boundText_plain (by simp [byMember, htype]) (by simp [htype]) (by cases b <;> decide)]
    cases b <;> decide
  rw [agrees_iff_text readBoolean cmp_eq_eq_iff
    (a := decide (v.number ≠ 0)) (b := decide (w.number ≠ 0)), htext, htext]
  · generalize decide (v.number ≠ 0) = a
    generalize decide (w.number ≠ 0) = b
    cases a <;> cases b <;> decide
  · rw [keyColumn, htype]
    dsimp only
    rw [column, htype]
  · rw [htext, hread]
  · have hequal : equalIn field v w = true ↔ v.number = w.number := by simp [equalIn, compareField, htype]
    rw [hequal]
    cases v with
    | boolean b =>
      cases w with
      | boolean c => cases b <;> cases c <;> decide
      | _ => cases hw
    | _ => cases hv

theorem signed_digit {c : UInt8} (h : isDigit c = true) (rest : Bytes) : signed (c :: rest) =
    (false, c :: rest) := by
  have hminus : c ≠ Ch.minus := by
    rintro rfl
    cases h
  have hplus : c ≠ Ch.plus := by
    rintro rfl
    cases h
  rw [signed, if_neg hminus, if_neg hplus]

/-- The database reads a decimal's text as the number it is. -/
theorem readNumeric_toInvariantString (d : Decimal) : readNumeric d.toInvariantString = some d.rational := by
  obtain ⟨whole, fraction, htext, hwhole, hne, hfraction, hscale, hunits⟩ := toInvariantString_pointed d
  have htail : (if fraction = [] then [] else Ch.dot :: fraction).tail = fraction := by
    split
    · next hnil => rw [hnil, List.tail_nil]
    · rfl
  have hdot : ∀ c ∈ (if fraction = [] then [] else Ch.dot :: fraction), c = Ch.dot ∨ isDigit c = true := by
    intro c hc
    split at hc
    · cases hc
    · exact (List.mem_cons.mp hc).imp id (hfraction c)
  have hspace : ∀ c ∈ d.toInvariantString, isSpace c = false := by
    intro c hc
    rw [htext, pointed] at hc
    rcases List.mem_append.mp hc with hsign | hc
    · split at hsign
      · rw [List.mem_singleton.mp hsign]
        rfl
      · cases hsign
    · rcases List.mem_append.mp hc with hc | hc
      · exact isSpace_digit (hwhole c hc)
      · rcases hdot c hc with rfl | hc
        · rfl
        · exact isSpace_digit hc
  have htrim : trim d.toInvariantString = d.toInvariantString :=
    trim_of_ends (fun c hc => hspace c (List.mem_of_mem_head? hc)) fun c hc => hspace c
        (List.mem_of_mem_getLast? hc)
  have hsigned : signed d.toInvariantString = (d.negative, pointed whole fraction) := by
    rw [htext]
    cases d.negative with
    | true => rfl
    | false =>
      obtain ⟨c, rest, rfl⟩ := List.exists_cons_of_ne_nil hne
      exact signed_digit (hwhole c List.mem_cons_self) _
  have hfirst : (pointed whole fraction).takeWhile isDigit = whole := by
    rw [pointed, List.takeWhile_append_of_pos hwhole]
    split
    · rw [List.takeWhile_nil, List.append_nil]
    · rw [List.takeWhile_cons_of_neg (by decide), List.append_nil]
  have hrest : (pointed whole fraction).drop whole.length = if fraction = [] then [] else Ch.dot :: fraction :=
    List.drop_left
  have hpoint : ¬ ((if fraction = [] then [] else Ch.dot :: fraction) ≠ [] ∧
      (if fraction = [] then [] else Ch.dot :: fraction).head? ≠ some Ch.dot) := by
    split <;> simp
  have hdigits : fraction.all isDigit = true := List.all_eq_true.mpr hfraction
  rw [readNumeric, htrim, hsigned]
  dsimp only
  rw [hfirst, hrest, htail, hunits, hscale, if_neg (by simp [hne, hdigits]), if_neg hpoint, d.rational_eq]
  cases d.negative <;> simp

theorem agrees_decimal (htype : field.type = .decimal) :
    Agrees collation field v w ↔
      (v.asDecimal.toInvariantString = w.asDecimal.toInvariantString ↔ v.asDecimal.compare w.asDecimal = .eq) := by
  have htext : ∀ v, valueText field v = v.asDecimal.toInvariantString := fun v => by
    rw [valueText, fieldText, htype]
  have hne : v.asDecimal.toInvariantString ≠ [] := by
    intro hnil
    have hread := readNumeric_toInvariantString v.asDecimal
    rw [hnil] at hread
    cases hread
  rw [agrees_iff_text readNumeric cmp_eq_eq_iff (a := v.asDecimal.rational)
      (b := w.asDecimal.rational), htext, htext, Decimal.compare_rational, cmp_eq_eq_iff]
  · rw [keyColumn, htype]
    dsimp only
    rw [column, htype]
  · rw [htext, boundText_plain (by simp [byMember, htype]) (by simp [htype]) hne, readNumeric_toInvariantString]
  · rw [equalIn, compareField, htype]
    dsimp only
    rw [Decimal.compare_rational, decide_eq_true_iff, cmp_eq_eq_iff]

/-! ### Members -/

theorem number_option (h : isOf .option v = true) : v.number = v.ordinal.toInt := by
  cases v with
  | option n => rfl
  | _ => cases h

/-- A member's text must name the member again. -/
theorem agrees_member (htype : field.type = .option ∨ field.type = .enum) (hv : isOf .option v = true)
    (hw : isOf .option w = true)
    (hread : readInteger (-2 ^ 31) (2 ^ 31 - 1) (memberOrdinal field (memberText field v.ordinal)) =
      some v.ordinal.toInt)
    (hother : readInteger (-2 ^ 31) (2 ^ 31 - 1) (memberOrdinal field (memberText field w.ordinal)) =
      some w.ordinal.toInt) : Agrees collation field v w := by
  have htext : ∀ v, valueText field v = memberText field v.ordinal := fun v => by
    rcases htype with htype | htype <;> rw [valueText, fieldText, htype]
  rw [agrees_iff_text (readInteger (-2 ^ 31) (2 ^ 31 - 1)) compare_eq_iff (a := v.ordinal.toInt)
    (b := w.ordinal.toInt), htext, htext]
  · constructor
    · intro hsame
      rw [hsame, hother] at hread
      exact (Option.some.inj hread).symm
    · intro hsame
      rw [Int32.toInt_inj.mp hsame]
  · rcases htype with htype | htype <;> simp only [keyColumn, column, htype]
  · rw [htext, boundText_member htype, hread]
  · have hnv := number_option hv
    have hnw := number_option hw
    rcases htype with htype | htype <;> simp [equalIn, compareField, htype, hnv, hnw]

theorem member_of_agrees (htype : field.type = .option ∨ field.type = .enum) (h : Agrees collation field v v) :
    readInteger (-2 ^ 31) (2 ^ 31 - 1) (memberOrdinal field (memberText field v.ordinal)) =
      some v.ordinal.toInt := by
  have htext : valueText field v = memberText field v.ordinal := by
    rcases htype with htype | htype <;> rw [valueText, fieldText, htype]
  have hequals := h.2
  have hsame : equalIn field v v = true := h.1.mp rfl
  have hcompare : ∀ bound, (keyColumn collation field v).compare bound =
      (readInteger (-2 ^ 31) (2 ^ 31 - 1) bound).map (Ord.compare v.ordinal.toInt) := by
    intro bound
    rcases htype with htype | htype <;> simp only [keyColumn, column, htype]
  rw [hsame, equals, htext, boundText_member htype, hcompare, Option.map_map, Option.map_eq_some_iff] at hequals
  obtain ⟨n, hn, heq⟩ := hequals
  have : v.ordinal.toInt = n := by simpa using heq
  rw [hn, this]

/-! ### Times of day, GUIDs and bytes -/

theorem time_ext {t u : Time} (h : t.milliseconds = u.milliseconds) : t = u := by
  obtain ⟨milliseconds, bounded⟩ := t
  obtain ⟨milliseconds', bounded'⟩ := u
  obtain rfl : milliseconds = milliseconds' := h
  rfl

theorem agrees_time (htype : field.type = .time) (hv : isOf .time v = true) (hw : isOf .time w = true) :
    Agrees collation field v w := by
  have htext : ∀ v, valueText field v = v.asTime.toInvariantString := fun v => by
    rw [valueText, fieldText, htype]
  have hne : v.asTime.toInvariantString ≠ [] := by
    intro hnil
    have hread := readTime_text v.asTime
    rw [hnil] at hread
    cases hread
  rw [agrees_iff_text readTime compare_eq_iff (a := v.asTime.milliseconds) (b := w.asTime.milliseconds), htext, htext]
  · constructor
    · intro hsame
      have hread := readTime_text v.asTime
      rw [hsame, readTime_text] at hread
      exact (Option.some.inj hread).symm
    · intro hsame
      rw [time_ext hsame]
  · rw [keyColumn, htype]
    exact readAs_compare (readTime_text _) _
  · rw [htext, boundText_plain (by simp [byMember, htype]) (by simp [htype]) hne, readTime_text]
  · cases v with
    | time t =>
      cases w with
      | time u => simp [equalIn, compareField, htype, Value.number, Value.asTime]
      | _ => cases hw
    | _ => cases hv

theorem bytes_of_toText {g h : Guid} (hsame : g.toText = h.toText) : g.bytes = h.bytes := by
  have hread := guidFromText_toText g
  rw [hsame, guidFromText_toText] at hread
  exact congrArg Guid.bytes (Except.ok.inj hread).symm

theorem toText_of_bytes {g h : Guid} (hsame : g.bytes = h.bytes) : g.toText = h.toText := by
  obtain ⟨bytes, size⟩ := g
  obtain ⟨bytes', size'⟩ := h
  obtain rfl : bytes = bytes' := hsame
  rfl

theorem agrees_guid (htype : field.type = .guid ∨ field.type = .media ∨ field.type = .mediaSet) :
    Agrees collation field v w := by
  have htext : ∀ v, valueText field v = v.asGuid.toText := fun v => by
    rcases htype with htype | htype | htype <;> rw [valueText, fieldText, htype]
  have hread : ∀ g : Guid, readGuid g.toText = some g.bytes := fun g => by
    rw [readGuid, guidFromText_toText]
    rfl
  have hhyphenated : readGuid w.asGuid.hyphenated = some w.asGuid.bytes := by
    rw [readGuid, guidFromText_hyphenated]
    rfl
  have hbound : boundText field v.asGuid.toText = v.asGuid.toText := by
    rcases htype with htype | htype | htype <;>
      exact boundText_plain (by simp [byMember, htype]) (by simp [htype]) (List.cons_ne_nil _ _)
  rw [agrees_iff_text readGuid compare_eq_iff (a := v.asGuid.bytes) (b := w.asGuid.bytes), htext, htext]
  · exact ⟨bytes_of_toText, toText_of_bytes⟩
  · rcases htype with htype | htype | htype <;> rw [keyColumn, htype]
    · exact readAs_compare hhyphenated _
    · exact readAs_compare (hread _) _
    · exact readAs_compare (hread _) _
  · rw [htext, hbound, hread]
  · have hsame : v.asGuid.toText = w.asGuid.toText ↔ v.asGuid.bytes = w.asGuid.bytes :=
      ⟨bytes_of_toText, toText_of_bytes⟩
    rcases htype with htype | htype | htype <;> simp [equalIn, compareField, fieldText, htype, hsame]

theorem readBinary_hex (bytes : Bytes) : readBinary (ascii "\\x" ++ bytes.flatMap (hexByte false)) =
    some bytes := by
  have hbegins : (ascii "\\x").isPrefixOf (ascii "\\x" ++ bytes.flatMap (hexByte false)) = true := by
    rw [List.isPrefixOf_iff_prefix]
    exact List.prefix_append _ _
  rw [readBinary, blobFromText, if_pos hbegins]
  show (byteTexts (bytes.flatMap (hexByte false))).toOption = _
  rw [byteTexts_hex]
  rfl

theorem agrees_blob (htype : field.type = .blob) : Agrees collation field v w := by
  have htext : ∀ v, valueText field v = ascii "\\x" ++ v.characters.flatMap (hexByte false) := fun v => by
    rw [valueText, fieldText, htype]
  have hsame : ascii "\\x" ++ v.characters.flatMap (hexByte false) =
      ascii "\\x" ++ w.characters.flatMap (hexByte false) ↔ v.characters = w.characters := by
    constructor
    · intro hsame
      have hread := readBinary_hex v.characters
      rw [hsame, readBinary_hex] at hread
      exact (Option.some.inj hread).symm
    · intro hsame
      rw [hsame]
  rw [agrees_iff_text readBinary compare_eq_iff (a := v.characters) (b := w.characters), htext, htext]
  · exact hsame
  · rw [keyColumn, htype]
    exact readAs_compare (readBinary_hex _) _
  · have hne : ascii "\\x" ++ v.characters.flatMap (hexByte false) ≠ [] := List.cons_ne_nil _ _
    rw [htext, boundText_plain (by simp [byMember, htype]) (by simp [htype]) hne, readBinary_hex]
  · simp only [equalIn, compareField, fieldText, htype, compare_eq_iff, decide_eq_true_iff, hsame]

/-! ### Days -/

/-- Milliseconds to the midnight of a day, and what a column holds of it. -/
def midnight (d : Date) : Int := if d.isUndefined then 0 else d.daysSinceFirst * millisecondsPerDay

def heldDay (d : Date) : Int := midnight d + if d.isClosing then 86399000 else 0

theorem readInstant_blankDay : readInstant (ascii "1753-01-01 00:00:00") = some 0 := by
  decide +kernel

theorem readInstant_dateStorageText (d : Date) : readInstant (dateStorageText d) = some (heldDay d) := by
  cases h : d.isUndefined with
  | true =>
    have hclosing : d.isClosing = false := by rw [Date.isClosing, h]; rfl
    rw [dateStorageText, h, if_pos rfl, readInstant_blankDay, heldDay, midnight, h, hclosing]
    rfl
  | false =>
    have htext : dateStorageText d = d.toInvariantString ++
        (Ch.blank :: if d.isClosing then closingTime else ascii "00:00:00") := by
      rw [dateStorageText, Date.toInvariantString, h]
      simp
    rw [htext, readInstant_day h, heldDay, midnight, h]
    cases d.isClosing with
    | true =>
      have hlast : closingTime.getLast? ≠ some 90 := by decide
      have hread : readTime closingTime = some 86399000 := by decide
      simp [hlast, hread]
    | false =>
      have hlast : (ascii "00:00:00").getLast? ≠ some 90 := by decide
      have hread : readTime (ascii "00:00:00") = some 0 := by decide
      simp [hlast, hread]

/-- A day is bound as its midnight. -/
theorem readInstant_boundDay (htype : field.type = .date ∨ field.type = .dateTime) (d : Date) :
    readInstant (boundText field d.toInvariantString) = some (midnight d) := by
  have hblank : blankValueOf field = ascii "1753-01-01 00:00:00" := by
    unfold blankValueOf
    rcases htype with htype | htype <;> rw [htype]
  cases h : d.isUndefined with
  | true =>
    have hnil : d.toInvariantString = [] := by rw [Date.toInvariantString, h, if_pos rfl]
    rw [hnil, boundText, if_pos rfl, hblank, readInstant_blankDay, midnight, h, if_pos rfl]
  | false =>
    have hne : d.toInvariantString ≠ [] := by
      intro hnil
      have hlength := day_length h
      rw [hnil] at hlength
      cases hlength
    have hread := readInstant_day h []
    rw [List.append_nil] at hread
    rw [boundText_plain (by rcases htype with h | h <;> simp [byMember, h])
      (by rcases htype with h | h <;> simp [h]) hne, hread, midnight, h]
    rfl

theorem sameDay_iff {d e : Date} : d.toInvariantString = e.toInvariantString ↔ d.serial / 2 = e.serial / 2 := by
  have hd := d.known
  have he := e.known
  have hblank : ∀ {d : Date}, d.toInvariantString = [] ↔ d.serial = 0 := by
    intro d
    cases h : d.isUndefined with
    | true => simpa [Date.toInvariantString, h] using of_decide_eq_true h
    | false =>
      have hlength := day_length h
      have hserial : d.serial ≠ 0 := of_decide_eq_false h
      refine iff_of_false ?_ hserial
      intro hnil
      rw [hnil] at hlength
      cases hlength
  have hdays : ∀ {d : Date}, d.serial ≠ 0 → readDay d.toInvariantString = some ((d.serial : Int) / 2 - 1) := by
    intro d hserial
    have h : d.isUndefined = false := decide_eq_false hserial
    rw [readDay_text h, Date.daysSinceFirst, h]
    rfl
  by_cases hd0 : d.serial = 0
  · rw [hblank.mpr hd0, eq_comm, hblank]
    omega
  · by_cases he0 : e.serial = 0
    · rw [hblank.mpr he0, hblank]
      omega
    · constructor
      · intro hsame
        have hread := hdays hd0
        rw [hsame, hdays he0] at hread
        have := Option.some.inj hread
        omega
      · intro hsame
        have hciv : d.civil = e.civil := by
          rw [Date.civil, Date.civil, show (d.serial : Int) / 2 = (e.serial : Int) / 2 by omega]
        have hd1 : d.isUndefined = false := decide_eq_false hd0
        have he1 : e.isUndefined = false := decide_eq_false he0
        rw [Date.toInvariantString, Date.toInvariantString, hd1, he1, hciv]

/-- Closing dates are bound as their day, and the undefined date as the first day. -/
theorem agrees_date_iff (htype : field.type = .date) (hv : isOf .date v = true) (hw : isOf .date w = true) :
    Agrees collation field v w ↔
      (v.asDate.serial / 2 = w.asDate.serial / 2 ↔ v.asDate.serial = w.asDate.serial) ∧
        (heldDay w.asDate = midnight v.asDate ↔ v.asDate.serial = w.asDate.serial) := by
  have htext : ∀ v, valueText field v = v.asDate.toInvariantString := fun v => by
    rw [valueText, fieldText, htype]
  have hequal : equalIn field v w = true ↔ v.asDate.serial = w.asDate.serial := by
    cases v with
    | date d =>
      cases w with
      | date e => simp [equalIn, compareField, htype, Value.number, Value.asDate]
      | _ => cases hw
    | _ => cases hv
  have hcompare := readAs_compare (readInstant_dateStorageText w.asDate)
      (boundText field v.asDate.toInvariantString)
  rw [readInstant_boundDay (.inl htype)] at hcompare
  have hequals : equals (keyColumn collation field w) field (valueText field v) =
      some (decide (heldDay w.asDate = midnight v.asDate)) := by
    rw [equals, keyColumn, htype, htext, hcompare]
    simp
  rw [Agrees, hequals, htext, htext, sameDay_iff, hequal, Option.some.injEq, Bool.eq_iff_iff, decide_eq_true_iff,
    hequal]

theorem dates_agree (d e : Date) (hd : d.isClosing = false) (he : e.isClosing = false)
    (hfirst : ¬ (d.isUndefined = true ∧ e.serial = 2)) (hother : ¬ (e.isUndefined = true ∧ d.serial = 2)) :
    (d.serial / 2 = e.serial / 2 ↔ d.serial = e.serial) ∧ (heldDay e = midnight d ↔ d.serial = e.serial) := by
  have hdk := d.known
  have hek := e.known
  simp only [Date.isClosing, Date.isUndefined, Bool.and_eq_false_iff, Bool.not_eq_false', decide_eq_true_eq,
    decide_eq_false_iff_not] at hd he hfirst hother
  simp only [heldDay, midnight, Date.isClosing, Date.isUndefined, Date.daysSinceFirst, millisecondsPerDay,
    decide_eq_true_eq, Bool.and_eq_true, Bool.not_eq_true', decide_eq_false_iff_not]
  constructor
  · omega
  · split <;> split <;> split <;> omega

/-! ### Instants -/

theorem readDay_letter (c : UInt8) (h : isDigit c = false) (rest : Bytes) : readDay (c :: rest) = none := by
  unfold readDay
  split
  · next heq =>
    obtain ⟨rfl, -⟩ := List.cons.inj heq
    rw [if_neg (by simp [h])]
  · rfl

theorem readInstant_letter (c : UInt8) (h : isDigit c = false) (rest : Bytes) : readInstant (c :: rest) =
    none := by
  have htake : (c :: rest).take 10 = c :: rest.take 9 := rfl
  rw [readInstant, htake, readDay_letter c h]
  rfl

theorem readInstant_dateTimeStorageText (t : DateTime) : readInstant (dateTimeStorageText t) = heldInstant t := by
  cases h : t.isUndefined with
  | true =>
    rw [dateTimeStorageText, heldInstant, h, if_pos rfl, if_pos rfl]
    decide +kernel
  | false =>
    rw [dateTimeStorageText, heldInstant, h, if_neg Bool.false_ne_true, if_neg Bool.false_ne_true]
    cases hday : t.date.isUndefined with
    | true =>
      have hnil : t.date.toInvariantString = [] := by rw [Date.toInvariantString, hday, if_pos rfl]
      rw [hnil]
      exact readInstant_letter Ch.blank (by decide) _
    | false =>
      rw [readInstant_blank hday]
      rfl

theorem readInstant_boundInstant (htype : field.type = .dateTime) (t : DateTime) :
    readInstant (boundText field t.toInvariantString) = heldInstant t := by
  have hmember : byMember field = false := by simp [byMember, htype]
  have hcode : field.type ≠ .code := by simp [htype]
  cases h : t.isUndefined with
  | true =>
    have hread := readInstant_boundDay (.inr htype) Date.undefined
    have hnil : t.toInvariantString = Date.undefined.toInvariantString := by
      rw [DateTime.toInvariantString, h, if_pos rfl]
      rfl
    rw [hnil, hread, heldInstant, h, if_pos rfl]
    rfl
  | false =>
    rw [DateTime.toInvariantString, heldInstant, h, if_neg Bool.false_ne_true, if_neg Bool.false_ne_true]
    cases hday : t.date.isUndefined with
    | true =>
      have hnil : t.date.toInvariantString = [] := by rw [Date.toInvariantString, hday, if_pos rfl]
      rw [hnil, boundText_plain hmember hcode (by simp [ascii])]
      exact readInstant_letter 84 (by decide) _
    | false =>
      have hne : t.date.toInvariantString ++ ascii "T" ++ t.time.toInvariantString ++ ascii "Z" ≠ [] := by
        simp [ascii]
      rw [boundText_plain hmember hcode hne, readInstant_zoned hday]
      rfl

/-- An instant is bound as its column holds it. -/
theorem agrees_dateTime_iff (htype : field.type = .dateTime) :
    Agrees collation field v w ↔
      (v.asDateTime.toInvariantString = w.asDateTime.toInvariantString ↔ v.number = w.number) ∧
        (heldInstant w.asDateTime).isSome ∧ (heldInstant v.asDateTime).isSome ∧
          (heldInstant w.asDateTime = heldInstant v.asDateTime ↔ v.number = w.number) := by
  have htext : ∀ v, valueText field v = v.asDateTime.toInvariantString := fun v => by
    rw [valueText, fieldText, htype]
  have hequal : equalIn field v w = true ↔ v.number = w.number := by simp [equalIn, compareField, htype]
  have hequals : equals (keyColumn collation field w) field (valueText field v) = (do
      let held ← heldInstant w.asDateTime
      let bound ← heldInstant v.asDateTime
      return decide (held = bound)) := by
    rw [equals, keyColumn, htype, htext]
    show (Option.map _ (do
      let held ← readInstant (dateTimeStorageText w.asDateTime)
      let bound ← readInstant (boundText field v.asDateTime.toInvariantString)
      return Ord.compare held bound)) = _
    rw [readInstant_dateTimeStorageText, readInstant_boundInstant htype]
    cases heldInstant w.asDateTime <;> cases heldInstant v.asDateTime <;> simp
  rw [Agrees, hequals, htext, htext, hequal]
  apply and_congr_right
  intro _
  cases heldInstant w.asDateTime with
  | none => simp
  | some held =>
    cases heldInstant v.asDateTime with
    | none => simp
    | some bound =>
      simp only [Option.bind_eq_bind, Option.bind_some, Option.pure_def, Option.some.injEq, Option.isSome_some,
        true_and]
      rw [Bool.eq_iff_iff, decide_eq_true_iff, hequal]

theorem dateTime_ext {t u : DateTime} (h : t.milliseconds = u.milliseconds) : t = u := by
  obtain ⟨milliseconds, bounded⟩ := t
  obtain ⟨milliseconds', bounded'⟩ := u
  obtain rfl : milliseconds = milliseconds' := h
  rfl

/-- Instants that are bound as their columns hold them have texts of their own. -/
theorem dateTimes_agree (hv : isOf .dateTime v = true) (hw : isOf .dateTime w = true)
    (htype : field.type = .dateTime) (hheld : (heldInstant v.asDateTime).isSome)
    (hdistinct : heldInstant v.asDateTime = heldInstant w.asDateTime → v.number = w.number) :
    v.asDateTime.toInvariantString = w.asDateTime.toInvariantString ↔ v.number = w.number := by
  constructor
  · intro hsame
    apply hdistinct
    rw [← readInstant_boundInstant htype, hsame, readInstant_boundInstant htype]
  · intro hsame
    cases v with
    | dateTime t =>
      cases w with
      | dateTime u =>
        have : t = u := dateTime_ext (Int.ofNat.inj hsame)
        rw [this]
      | _ => cases hw
    | _ => cases hv

/-! ### Texts -/

/-- A column of texts: the collation decides. -/
theorem agrees_collated_iff (shown : Value → Bytes) {stored : Bytes} (htext : ∀ v, valueText field v = shown v)
    (hbound : boundText field (shown v) = shown v)
    (hcompare : (keyColumn collation field w).compare (shown v) = some (collation stored (shown v)))
    (hequal : equalIn field v w = decide (shown v = shown w)) :
    Agrees collation field v w ↔ (collation stored (shown v) = .eq ↔ shown v = shown w) := by
  have hequals : equals (keyColumn collation field w) field (valueText field v) =
      some (decide (collation stored (shown v) = .eq)) := by
    rw [equals, htext, hbound, hcompare]
    rfl
  rw [← htext, ← htext] at hequal
  rw [agrees_iff_equals hequal, hequals, htext, htext, Option.some.injEq, decide_eq_decide]

theorem boundText_any (hmember : byMember field = false) (hcode : field.type ≠ .code)
    (hblank : blankValueOf field = [])
    (text : Bytes) : boundText field text = text := by
  by_cases hnil : text = []
  · rw [hnil, boundText, if_pos rfl, hblank]
  · exact boundText_plain hmember hcode hnil

/-- Texts are bound as they are. -/
theorem agrees_text_iff (htype : field.type = .text ∨ field.type = .code ∨ field.type = .tableFilter)
    (hcode : field.type = .code → normaliseCode v.characters = v.characters) :
    Agrees collation field v w ↔ (collation w.characters v.characters = .eq ↔ v.characters = w.characters) := by
  apply agrees_collated_iff Value.characters
  · intro v
    rcases htype with htype | htype | htype <;> rw [valueText, fieldText, htype]
  · rcases htype with htype | htype | htype
    · exact boundText_text htype _
    · rw [boundText_code htype, hcode htype]
    · exact boundText_any (by simp [byMember, htype]) (by simp [htype]) (by rw [blankValueOf, htype]) _
  · rcases htype with htype | htype | htype <;> simp [keyColumn, column, htype]
  · rcases htype with htype | htype | htype <;> simp [equalIn, compareField, fieldText, htype]

/-- A record id is bound as it is shown. -/
theorem agrees_recordId_iff (htype : field.type = .recordId) :
    Agrees collation field v w ↔
      (collation w.asRecordId.toStorageText v.asRecordId.toText = .eq ↔
        v.asRecordId.toText = w.asRecordId.toText) := by
  apply agrees_collated_iff fun v => v.asRecordId.toText
  · intro v
    rw [valueText, fieldText, htype]
  · exact boundText_any (by simp [byMember, htype]) (by simp [htype]) (by rw [blankValueOf, htype]) _
  · rw [keyColumn, htype]
    rfl
  · simp [equalIn, compareField, fieldText, htype]

/-- A formula is bound as it is shown. -/
theorem agrees_dateFormula_iff (htype : field.type = .dateFormula) :
    Agrees collation field v w ↔
      (collation w.asDateFormula.stored v.asDateFormula.shown = .eq ↔
        v.asDateFormula.shown = w.asDateFormula.shown) := by
  apply agrees_collated_iff fun v => v.asDateFormula.shown
  · intro v
    rw [valueText, fieldText, htype]
  · exact boundText_any (by simp [byMember, htype]) (by simp [htype]) (by rw [blankValueOf, htype]) _
  · rw [keyColumn, htype]
    rfl
  · simp [equalIn, compareField, fieldText, htype]

theorem sameText_isPacked {a b : Bytes} (h : sameText a b = true) : isPacked a = isPacked b := by
  have hlower : ∀ c : UInt8, (decide (1 ≤ lower c) && decide (lower c ≤ 7)) = (decide (1 ≤ c) && decide (c ≤ 7)) :=
    fun c => forall_byte (p := fun c => (decide (1 ≤ lower c) && decide (lower c ≤ 7)) =
      (decide (1 ≤ c) && decide (c ≤ 7))) (by decide +kernel) c
  have hmap : ∀ text : Bytes, isPacked (text.map lower) = isPacked text := by
    intro text
    simp only [isPacked, List.any_map]
    congr 1
    funext c
    exact hlower c
  rw [← hmap a, ← hmap b, of_decide_eq_true h]

/-- The number that a record id is stored with is not shown. -/
theorem toStorageText_length {id : RecordId} (h : id.key ≠ []) : id.toText.length < id.toStorageText.length := by
  have hnumber := List.length_pos_iff.mpr (natText_ne_nil id.table)
  have hkey : ∀ key : List Bytes, key ≠ [] → ((key.intersperse [Ch.comma]).flatten).length + 1 =
      (key.flatMap fun value => Ch.unitSeparator :: value).length := by
    intro key hne
    induction key with
    | nil => exact absurd rfl hne
    | cons value key ih =>
      cases key with
      | nil => simp
      | cons other key =>
        have hrest := ih (List.cons_ne_nil _ _)
        simp only [List.intersperse, List.flatten_cons, List.flatMap_cons, List.length_append, List.length_cons,
          List.length_nil] at hrest ⊢
        omega
  have hlength := hkey id.key h
  have hcolon : (ascii ": ").length = 2 := rfl
  rw [RecordId.toText, if_neg h, RecordId.toStorageText, if_neg h]
  simp only [List.length_append, List.length_singleton, hcolon]
  omega

end

/-! ### Which values fit -/

section
variable {collation : Bytes → Bytes → Ordering} {field : FieldDef} {values : Value → Prop}

/-- **A mark tells the values of a field apart just where they fit.** -/
theorem agrees_iff_fits (hrefl : ∀ a, collation a a = .eq)
    (hsame : ∀ a b, collation a b = .eq → sameText a b = true) (hheld : Held field values) :
    (∀ v w, values v → values w → Agrees collation field v w) ↔ Fits collation field values := by
  have htyped := hheld.typed
  unfold Fits
  have hmembers : ∀ (htype : field.type = .option ∨ field.type = .enum),
      (∀ v w, values v → values w → Agrees collation field v w) ↔
        ∀ v, values v → readInteger (-2 ^ 31) (2 ^ 31 - 1) (memberOrdinal field (memberText field v.ordinal)) =
          some v.ordinal.toInt := by
    intro htype
    have hoption : ∀ v, values v → isOf .option v = true := by
      intro v hv
      have hof := htyped v hv
      cases v with
      | option n => rfl
      | _ => rcases htype with htype | htype <;> rw [htype] at hof <;> cases hof
    constructor
    · intro h v hv
      exact member_of_agrees htype (h v v hv hv)
    · intro h v w hv hw
      exact agrees_member htype (hoption v hv) (hoption w hw) (h v hv) (h w hw)
  have htexts : ∀ (htype : field.type = .text ∨ field.type = .code ∨ field.type = .tableFilter),
      (∀ v w, values v → values w → Agrees collation field v w) ↔
        ∀ v w, values v → values w → collation w.characters v.characters = .eq → v.characters = w.characters := by
    intro htype
    constructor
    · intro h v w hv hw
      exact ((agrees_text_iff htype (hheld.code v hv)).mp (h v w hv hw)).mp
    · intro h v w hv hw
      refine (agrees_text_iff htype (hheld.code v hv)).mpr ⟨h v w hv hw, ?_⟩
      intro hequal
      rw [hequal, hrefl]
  cases htype : field.type with
  | text => exact htexts (.inl htype)
  | code => exact htexts (.inr (.inl htype))
  | tableFilter => exact htexts (.inr (.inr htype))
  | option => exact hmembers (.inl htype)
  | enum => exact hmembers (.inr htype)
  | integer =>
    refine iff_of_true ?_ trivial
    intro v w hv _
    exact agrees_integer htype (htype ▸ htyped v hv)
  | bigInteger => exact iff_of_true (fun _ _ _ _ => agrees_bigInteger htype) trivial
  | duration => exact iff_of_true (fun _ _ _ _ => agrees_duration htype) trivial
  | boolean =>
    refine iff_of_true ?_ trivial
    intro v w hv hw
    exact agrees_boolean htype (htype ▸ htyped v hv) (htype ▸ htyped w hw)
  | time =>
    refine iff_of_true ?_ trivial
    intro v w hv hw
    exact agrees_time htype (htype ▸ htyped v hv) (htype ▸ htyped w hw)
  | guid => exact iff_of_true (fun _ _ _ _ => agrees_guid (.inl htype)) trivial
  | media => exact iff_of_true (fun _ _ _ _ => agrees_guid (.inr (.inl htype))) trivial
  | mediaSet => exact iff_of_true (fun _ _ _ _ => agrees_guid (.inr (.inr htype))) trivial
  | blob => exact iff_of_true (fun _ _ _ _ => agrees_blob htype) trivial
  | decimal =>
    have hback : ∀ v w : Value, v.asDecimal.toInvariantString = w.asDecimal.toInvariantString →
        v.asDecimal.compare w.asDecimal = .eq := by
      intro v w hequal
      have hread := readNumeric_toInvariantString v.asDecimal
      rw [hequal, readNumeric_toInvariantString] at hread
      rw [Decimal.compare_rational, cmp_eq_eq_iff, Option.some.inj hread]
    constructor
    · intro h v w hv hw
      exact ((agrees_decimal htype).mp (h v w hv hw)).mpr
    · intro h v w hv hw
      exact (agrees_decimal htype).mpr ⟨hback v w, h v w hv hw⟩
  | date =>
    have hof : ∀ v, values v → isOf .date v = true := fun v hv => htype ▸ htyped v hv
    constructor
    · intro h
      constructor
      · intro v hv
        have hself := ((agrees_date_iff htype (hof v hv) (hof v hv)).mp (h v v hv hv)).2.mpr rfl
        cases hclosing : v.asDate.isClosing with
        | false => rfl
        | true =>
          rw [heldDay, hclosing, if_pos rfl] at hself
          omega
      · intro v w hv hw hundefined hfirst
        have hboth := ((agrees_date_iff htype (hof v hv) (hof w hw)).mp (h v w hv hw)).2
        have hserial : v.asDate.serial = 0 := of_decide_eq_true hundefined
        have hheld : heldDay w.asDate = midnight v.asDate := by
          simp [heldDay, midnight, Date.isUndefined, Date.isClosing, Date.daysSinceFirst, hserial, hfirst]
        have := hboth.mp hheld
        omega
    · rintro ⟨hclosing, hfirst⟩ v w hv hw
      refine (agrees_date_iff htype (hof v hv) (hof w hw)).mpr
        (dates_agree _ _ (hclosing v hv) (hclosing w hw) ?_ ?_)
      · rintro ⟨hundefined, hserial⟩
        exact hfirst v w hv hw hundefined hserial
      · rintro ⟨hundefined, hserial⟩
        exact hfirst w v hw hv hundefined hserial
  | dateTime =>
    have hof : ∀ v, values v → isOf .dateTime v = true := fun v hv => htype ▸ htyped v hv
    constructor
    · intro h
      constructor
      · intro v hv
        exact ((agrees_dateTime_iff htype).mp (h v v hv hv)).2.1
      · intro v w hv hw hequal
        exact ((agrees_dateTime_iff htype).mp (h v w hv hw)).2.2.2.mp hequal.symm
    · rintro ⟨hsome, hdistinct⟩ v w hv hw
      have htext := dateTimes_agree (hof v hv) (hof w hw) htype (hsome v hv) (hdistinct v w hv hw)
      refine (agrees_dateTime_iff htype).mpr ⟨htext, hsome w hw, hsome v hv, ?_⟩
      constructor
      · intro hequal
        exact hdistinct v w hv hw hequal.symm
      · intro hequal
        rw [← readInstant_boundInstant htype w.asDateTime, ← htext.mpr hequal, readInstant_boundInstant htype]
  | recordId =>
    constructor
    · intro h v hv
      have hself := hsame _ _ (((agrees_recordId_iff htype).mp (h v v hv hv)).mpr rfl)
      by_contra hkey
      have hlonger := toStorageText_length hkey
      have hlength := sameText_length hself
      omega
    · intro h v w hv hw
      have hblank : ∀ v, values v → v.asRecordId.toText = [] ∧ v.asRecordId.toStorageText = [] := by
        intro v hv
        rw [RecordId.toText, RecordId.toStorageText, if_pos (h v hv), if_pos (h v hv)]
        exact ⟨rfl, rfl⟩
      rw [agrees_recordId_iff htype, (hblank v hv).1, (hblank w hw).1, (hblank w hw).2]
      exact iff_of_true (hrefl _) rfl
  | dateFormula =>
    constructor
    · intro h v hv
      have hself := hsame _ _ (((agrees_dateFormula_iff htype).mp (h v v hv hv)).mpr rfl)
      rcases hheld.formula v hv htype with ⟨hshown, -⟩ | ⟨-, hstored, hshown⟩
      · exact hshown
      · rw [sameText_isPacked hself, hshown] at hstored
        cases hstored
    · intro h v w hv hw
      have hstored : w.asDateFormula.stored = [] := by
        rcases hheld.formula w hw htype with ⟨-, hstored⟩ | ⟨hshown, -⟩
        · exact hstored
        · exact absurd (h w hw) hshown
      rw [agrees_dateFormula_iff htype, h v hv, h w hw, hstored]
      exact iff_of_true (hrefl _) rfl

end

end Agiru.Marks
