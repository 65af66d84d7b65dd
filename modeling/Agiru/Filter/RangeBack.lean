import Agiru.Filter.Columns
import Agiru.Filter.Range
import Agiru.Storage.DayOrder
import Agiru.Trigger.Calls

/-! When a range is the closed interval between its bounds and can be read back.

Numbers and truths always are. A text's bounds lose their quotes, and a date's its closing; an option's
text is read as a member, or as a number. -/
namespace Agiru.Filter
open Bytes Position Storage Trigger
open View (Declared isOn carries narrow selectionChanged)

variable {table : TableDef}
variable {state : RecordState table}

/-! ### Fields with a range -/

inductive RangeKind
  | text | code | integer | bigInteger | decimal | boolean | option | enum | date
  deriving DecidableEq

namespace RangeKind

abbrev type : RangeKind → FieldType
  | text => .text
  | code => .code
  | integer => .integer
  | bigInteger => .bigInteger
  | decimal => .decimal
  | boolean => .boolean
  | option => .option
  | enum => .enum
  | date => .date

/-- What a record holds. -/
def value : (kind : RangeKind) → FieldHolds kind.type → Value
  | text, s => .text s
  | code, s => .code s.1
  | integer, n => .integer n
  | bigInteger, n => .bigInteger n
  | decimal, d => .decimal d
  | boolean, b => .boolean b
  | option, n => .option n
  | enum, n => .option n
  | date, d => .date d

/-- A field's value before anything is assigned to it. -/
def initial : (kind : RangeKind) → FieldHolds kind.type
  | text => ([] : Bytes)
  | code => ⟨[], normaliseCode_nil⟩
  | integer => (0 : Int32)
  | bigInteger => (0 : Int64)
  | decimal => Decimal.zero
  | boolean => false
  | option => (0 : Int32)
  | enum => (0 : Int32)
  | date => Date.undefined

end RangeKind

/-- A value that a field holds: a text is within its length. -/
abbrev Held (field : FieldDef) (kind : RangeKind) : Type :=
  {value : FieldHolds kind.type // Storage.Fits field kind.type value}

namespace Held
variable {field : FieldDef} {kind : RangeKind}

def record (value : Held field kind) : Record := fun _ => kind.value value.1

def text (value : Held field kind) : Bytes := fieldText value.record field

def compare (a b : Held field kind) : Ordering := compareField a.record b.record field

end Held

/-! ### Setting a range, and reading it back -/

def declaration (field : Declared table) : FieldDef := (table.field field.1).get (View.isSome_declared field)

/-- `SetRange`. -/
def setRange (state : RecordState table) (field : Declared table) {kind : RangeKind}
    (low high : Held (declaration field) kind) : RecordState table :=
  narrow state field (rangeFilter low.text high.text)

def noFilter (field : Declared table) : Bytes := ascii "There is no filter on field " ++ natText field.1

/-- The last text of a field's filters in the current group, else of those that filter anything. -/
def filterText (state : RecordState table) (field : Declared table) : Bytes :=
  let own := (state.filters.filter (isOn state field)).getLast?.elim [] (·.text)
  if own ≠ [] then own
  else (state.filters.filter fun one => one.field = field.1 ∧ one.text ≠ []).getLast?.elim [] (·.text)

/-- `RangeBoundText`. -/
def rangeBoundText (state : RecordState table) (field : Declared table) (upper : Bool) : Except Bytes Bytes :=
  if filterText state field = [] then .error (noFilter field) else rangeBoundOf (filterText state field) upper

/-- The value of a bound's text. -/
def boundValue (platform : Platform table) (field : FieldDef) (kind : RangeKind) (text : Bytes) :
    Except Bytes (FieldHolds kind.type) :=
  if text = [] then .ok kind.initial else evaluated platform field text kind.type

/-- `GetRangeMin` and `GetRangeMax`. -/
def getRange (platform : Platform table) (state : RecordState table) (field : Declared table) (kind : RangeKind)
    (upper : Bool) : Except Bytes (FieldHolds kind.type) := do
  boundValue platform (declaration field) kind (← rangeBoundText state field upper)

/-- No field has two filters in one group. -/
def Single (state : RecordState table) : Prop :=
  state.filters.Pairwise fun a b => ¬ (a.field = b.field ∧ a.group = b.group)

/-- The range is the closed interval, and can be read back. -/
structure RangeKept (platform : Platform table) (field : Declared table) {kind : RangeKind}
    (low high value : Held (declaration field) kind) : Prop where
  interval : matchesValue (parseFilter (rangeFilter low.text high.text)) value.text (declaration field) = true ↔
    low.compare value ≠ .gt ∧ value.compare high ≠ .gt
  lowerText : rangeBoundOf (rangeFilter low.text high.text) false = .ok low.text
  upperText : rangeBoundOf (rangeFilter low.text high.text) true = .ok high.text
  least : ∀ state : RecordState table, Single state →
    getRange platform (setRange state field low high) field kind false = .ok low.1
  greatest : ∀ state : RecordState table, Single state →
    getRange platform (setRange state field low high) field kind true = .ok high.1

/-! ### When -/

/-- Two texts that are read as the bounds that they are. -/
structure Bounds (low high : Bytes) : Prop where
  lower : Spelled low
  upper : Spelled high
  noDots : ¬ [Ch.dot, Ch.dot] <:+: low

/-- What a member's text is read as. -/
def memberRead (field : FieldDef) (ordinal : Int32) : Bytes := memberOrdinal field (memberText field ordinal)

/-- A member whose text names it again: the initial member where it has no text. -/
def Named (field : FieldDef) (ordinal : Int32) : Prop :=
  if memberText field ordinal = [] then ordinal = 0
  else (∀ c ∈ memberRead field ordinal, c = Ch.minus ∨ isDigit c = true) ∧
    stoi (Storage.memberOrdinal field (memberRead field ordinal)) = .ok ordinal.toInt

/-- Ordinals as they are read, in order: as numbers, or byte by byte where one is read as none. -/
def ReadInOrder (low high : Bytes) : Prop :=
  match stoll low, stoll high with
  | some i, some j => i ≤ j
  | _, _ => Ord.compare low high ≠ .gt

/-- Members whose texts name them again, between which a member is read as it lies. -/
structure MembersKept (field : FieldDef) (low high value : Int32) : Prop where
  bounds : Bounds (memberText field low) (memberText field high)
  lower : Named field low
  upper : Named field high
  between : ReadInOrder (memberRead field low) (memberRead field value) ∧
      ReadInOrder (memberRead field value) (memberRead field high) ↔ low ≤ value ∧ value ≤ high

/-- A member's text is its own: neither blank nor a number nor in quotes, and no other member is called so. -/
structure Own (field : FieldDef) (ordinal : Int32) : Prop where
  blank : ¬ (memberText field ordinal).all (· = Ch.blank) = true
  number : ¬ (memberText field ordinal).all (fun c => c = Ch.minus || isDigit c) = true
  quotes : (memberText field ordinal).head? ≠ some Ch.doubleQuote
  alone : ∀ v ∈ field.values, (sameText v.name (memberText field ordinal) ||
    sameText v.caption (memberText field ordinal)) = true → v.ordinal = ordinal

/-- Where the range is kept. -/
def Readable (platform : Platform table) (field : FieldDef) :
    (kind : RangeKind) → (low high value : FieldHolds kind.type) → Prop
  | .text, low, high, _ => Bounds low high
  | .code, low, high, _ => Bounds low.1 high.1
  | .integer, _, _, _ | .bigInteger, _, _, _ | .boolean, _, _, _ => True
  | .decimal, low, high, _ =>
    platform.declaredPlaces field low = .ok low ∧ platform.declaredPlaces field high = .ok high
  | .date, low, high, value => low.isClosing = false ∧ high.isClosing = false ∧
    ¬ (value.isClosing = true ∧ value.normal = high ∧ low.serial ≤ high.serial)
  | .option, low, high, value => MembersKept field low high value
  | .enum, low, high, value => MembersKept field low high value

/-! ### The filter in the record -/

theorem rangeFilter_ne_nil (low high : Bytes) : rangeFilter low high ≠ [] := by simp [rangeFilter]

/-- What is left of a field's filters in the current group is the one. -/
theorem filter_isOn (hsingle : Single state) {field : Declared table}
    {one : FieldFilter table} (h : state.filters.find? (isOn state field) = some one) :
    state.filters.filter (isOn state field) = [one] := by
  obtain ⟨hon, before, after, hsplit, hbefore⟩ := List.find?_eq_some_iff_append.mp h
  have hnone : ∀ other ∈ after, isOn state field other = false := by
    intro other hother
    rw [Single, hsplit, List.pairwise_append] at hsingle
    have hdiffer := (List.pairwise_cons.mp hsingle.2.1).1 other hother
    simp only [isOn, decide_eq_true_eq, Bool.decide_and, Bool.and_eq_true] at hon
    simp only [isOn, decide_eq_false_iff_not]
    intro hsame
    exact hdiffer ⟨hon.1.trans hsame.1.symm, hon.2.trans hsame.2.symm⟩
  rw [hsplit, List.filter_append, List.filter_cons_of_pos hon, List.filter_eq_nil_iff.mpr (by simpa using hbefore),
    List.filter_eq_nil_iff.mpr (by simpa using hnone)]
  rfl

theorem filterText_narrow (hsingle : Single state) (field : Declared table) {text : Bytes}
    (htext : text ≠ []) : filterText (narrow state field text) field = text := by
  have hown : ((narrow state field text).filters.filter (isOn (narrow state field text) field)).getLast?.elim []
      (·.text) = text := by
    by_cases hcarries : carries state field text = true
    · rw [narrow, if_pos hcarries]
      unfold carries at hcarries
      split at hcarries
      · exact absurd (of_decide_eq_true hcarries) htext
      · next previous hfind =>
        rw [filter_isOn hsingle hfind]
        exact of_decide_eq_true hcarries
    · have hothers : (state.filters.filter fun one => !isOn state field one).filter (isOn state field) = [] := by
        rw [List.filter_filter]
        simp
      have hon : isOn state field ⟨field.1, state.group, text, field.2⟩ = true := by simp [isOn]
      rw [narrow, if_neg hcarries, if_neg htext]
      show (List.filter (isOn state field) _).getLast?.elim [] (·.text) = text
      rw [List.filter_append, hothers, List.filter_cons_of_pos hon]
      rfl
  unfold filterText
  rw [hown]
  exact if_pos htext

theorem getRange_setRange (platform : Platform table) (hsingle : Single state)
    (field : Declared table) {kind : RangeKind} (low high : Held (declaration field) kind) (upper : Bool) :
    getRange platform (setRange state field low high) field kind upper =
      rangeBoundOf (rangeFilter low.text high.text) upper >>= boundValue platform (declaration field) kind := by
  have hne := rangeFilter_ne_nil low.text high.text
  rw [getRange, rangeBoundText, setRange, filterText_narrow hsingle field hne, if_neg hne]

/-- What the kept range says beside its texts. -/
theorem rangeKept_iff (platform : Platform table) (field : Declared table) {kind : RangeKind}
    (low high value : Held (declaration field) kind) :
    RangeKept platform field low high value ↔ Bounds low.text high.text ∧
      (matchesValue [[{compare := .between, value := low.text, upper := high.text}]] value.text
          (declaration field) =
        true ↔ low.compare value ≠ .gt ∧ value.compare high ≠ .gt) ∧
      boundValue platform (declaration field) kind low.text = .ok low.1 ∧
      boundValue platform (declaration field) kind high.text = .ok high.1 := by
  have hempty : Single ({} : RecordState table) := List.Pairwise.nil
  constructor
  · intro h
    obtain ⟨hlow, hhigh, hdots⟩ := (rangeBounds_iff low.text high.text).mp ⟨h.lowerText, h.upperText⟩
    have hleast := h.least {} hempty
    have hgreatest := h.greatest {} hempty
    rw [getRange_setRange platform hempty, h.lowerText] at hleast
    rw [getRange_setRange platform hempty, h.upperText] at hgreatest
    have hinterval := h.interval
    rw [parseFilter_spelled hlow hhigh (splitDots_eq_none.mpr hdots)] at hinterval
    exact ⟨⟨hlow, hhigh, hdots⟩, hinterval, hleast, hgreatest⟩
  · rintro ⟨⟨hlow, hhigh, hdots⟩, hinterval, hleast, hgreatest⟩
    obtain ⟨hlower, hupper⟩ := (rangeBounds_iff low.text high.text).mpr ⟨hlow, hhigh, hdots⟩
    refine ⟨?_, hlower, hupper, ?_, ?_⟩
    · rw [parseFilter_spelled hlow hhigh (splitDots_eq_none.mpr hdots)]
      exact hinterval
    · intro state hsingle
      rw [getRange_setRange platform hsingle, hlower]
      exact hleast
    · intro state hsingle
      rw [getRange_setRange platform hsingle, hupper]
      exact hgreatest

/-! ### Texts that are read as they are -/

/-- The characters of a number and of a day. -/
def plainCharacter (c : UInt8) : Bool := isDigit c || c = Ch.minus || c = Ch.dot

theorem spelled_of_plain {text : Bytes} (h : ∀ c ∈ text, plainCharacter c = true) : Spelled text := by
  have hspace : ∀ c, plainCharacter c = true → isSpace c = false :=
    forall_byte (p := fun c => plainCharacter c = true → isSpace c = false) (by decide +kernel)
  refine ⟨fun hquote => absurd (h _ hquote) (by decide), .inl ?_⟩
  exact trim_of_ends (fun c hc => hspace c (h c (List.mem_of_head? hc)))
    fun c hc => hspace c (h c (List.mem_of_getLast? hc))

theorem intText_plain (n : Int) : ∀ c ∈ intText n, plainCharacter c = true ∧ c ≠ Ch.dot := by
  intro c hc
  rcases List.mem_append.mp hc with hsign | hdigit
  · split at hsign
    · rw [List.mem_singleton.mp hsign]
      decide
    · cases hsign
  · have hc := isDigit_natText hdigit
    refine ⟨by simp [plainCharacter, hc], ?_⟩
    rintro rfl
    cases hc

theorem not_dots_of_not_mem {text : Bytes} (h : Ch.dot ∉ text) : ¬ [Ch.dot, Ch.dot] <:+: text := fun hin =>
  h (hin.subset List.mem_cons_self)

theorem bounds_of_plain {low high : Bytes} (hlow : ∀ c ∈ low, plainCharacter c = true ∧ c ≠ Ch.dot)
    (hhigh : ∀ c ∈ high, plainCharacter c = true ∧ c ≠ Ch.dot) : Bounds low high :=
  ⟨spelled_of_plain fun c hc => (hlow c hc).1, spelled_of_plain fun c hc => (hhigh c hc).1,
    not_dots_of_not_mem fun hdot => (hlow _ hdot).2 rfl⟩

theorem date_plain (d : Date) : ∀ c ∈ d.toInvariantString, plainCharacter c = true ∧ c ≠ Ch.dot := by
  intro c hc
  have hcharacter : isDigit c = true ∨ c = Ch.minus := by
    unfold Date.toInvariantString at hc
    split at hc
    · cases hc
    · simp only [List.mem_append, List.mem_singleton] at hc
      rcases hc with (((hc | hc) | hc) | hc) | hc
      · exact .inl (digits_padded _ _ c hc)
      · exact .inr hc
      · exact .inl (digits_padded _ _ c hc)
      · exact .inr hc
      · exact .inl (digits_padded _ _ c hc)
  rcases hcharacter with hdigit | rfl
  · refine ⟨by simp [plainCharacter, hdigit], ?_⟩
    rintro rfl
    cases hdigit
  · decide

theorem decimal_plain (d : Decimal) : (∀ c ∈ d.toInvariantString, plainCharacter c = true) ∧
    ¬ [Ch.dot, Ch.dot] <:+: d.toInvariantString := by
  obtain ⟨whole, fraction, htext, hwhole, hne, hfraction, -⟩ := toInvariantString_pointed d
  have hdigit : ∀ digits, Digits digits → ∀ c ∈ digits, plainCharacter c = true := by
    intro digits hdigits c hc
    simp [plainCharacter, hdigits c hc]
  have hcount : ∀ digits, Digits digits → digits.count Ch.dot = 0 := by
    intro digits hdigits
    rw [List.count_eq_zero]
    intro hdot
    exact absurd (hdigits _ hdot) (by decide)
  have hsign : ∀ c ∈ (if d.negative then [Ch.minus] else []), c = Ch.minus := by
    intro c hc
    split at hc
    · exact List.mem_singleton.mp hc
    · cases hc
  have hsignCount : (if d.negative then [Ch.minus] else []).count Ch.dot = 0 := by
    rw [List.count_eq_zero]
    intro hdot
    exact absurd (hsign _ hdot) (by decide)
  have hpoint : ∀ c ∈ (if fraction = [] then [] else Ch.dot :: fraction), plainCharacter c = true := by
    intro c hc
    split at hc
    · cases hc
    · rcases List.mem_cons.mp hc with rfl | hc
      · decide
      · exact hdigit fraction hfraction c hc
  have hpointCount : (if fraction = [] then [] else Ch.dot :: fraction).count Ch.dot ≤ 1 := by
    split
    · exact Nat.zero_le 1
    · rw [List.count_cons_self, hcount fraction hfraction]
  rw [htext, pointed]
  constructor
  · intro c hc
    rcases List.mem_append.mp hc with hc | hc
    · rw [hsign c hc]
      decide
    · rcases List.mem_append.mp hc with hc | hc
      · exact hdigit whole hwhole c hc
      · exact hpoint c hc
  · intro hin
    have htwo := hin.sublist.count_le Ch.dot
    rw [List.count_append, List.count_append, hsignCount, hcount whole hwhole] at htwo
    have : [Ch.dot, Ch.dot].count Ch.dot = 2 := rfl
    omega

/-! ### The order of the texts -/

/-- A range compares the spellings of its bounds. -/
theorem matches_between (field : FieldDef) (low high value : Bytes) :
    matchesValue [[{compare := .between, value := low, upper := high}]] value field = true ↔
      order (canonical value field) (canonical low field) field ≠ .lt ∧
        order (canonical value field) (canonical high field) field ≠ .gt := by
  cases htype : field.type <;> simp [matchesValue, satisfies, satisfiesCanonical, htype] <;> simp
      [canonical, htype]

section Kinds
variable {field : FieldDef} {kind : RangeKind}

theorem Held.compare_swap (a b : Held field kind) : a.compare b ≠ .gt ↔ b.compare a ≠ .lt := by
  have hswap : a.compare b = (b.compare a).swap :=
    @Std.OrientedCmp.eq_swap _ (fun a b => compareField a b field) _ _ _
  rw [hswap]
  cases b.compare a <;> decide

/-- Where the texts compare as the values do, the range is the interval. -/
theorem interval_of_order {low high value : Held field kind}
    (hlow : order (canonical value.text field) (canonical low.text field) field = value.compare low)
    (hhigh : order (canonical value.text field) (canonical high.text field) field = value.compare high) :
    matchesValue [[{compare := .between, value := low.text, upper := high.text}]] value.text field = true ↔
      low.compare value ≠ .gt ∧ value.compare high ≠ .gt := by
  rw [matches_between, hlow, hhigh, low.compare_swap value]

theorem stoll_int32 (n : Int32) : Filter.stoll (intText n.toInt) = some n.toInt := by
  have := n.le_toInt
  have := n.toInt_lt
  exact stoll_intText (by omega) (by omega)

/-- Texts, numbers and truths compare as their texts do. -/
theorem order_held (h : field.type = kind.type) (hkind : kind ≠ .option ∧ kind ≠ .enum ∧ kind ≠ .date)
    (a b : Held field kind) : order (canonical a.text field) (canonical b.text field) field = a.compare b := by
  cases kind with
  | text | code => simp [Held.compare, Held.text, canonical, order, compareField, h, RangeKind.type]
  | integer =>
    simp [Held.compare, Held.text, Held.record, canonical, order, compareField, fieldText, h, RangeKind.type,
      RangeKind.value, Value.number, stoll_int32]
  | bigInteger =>
    have hread : ∀ n : Int64, stoll (intText n.toInt) = some n.toInt := by
      intro n
      have := n.le_toInt
      have := n.toInt_lt
      exact stoll_intText (by omega) (by omega)
    simp [Held.compare, Held.text, Held.record, canonical, order, compareField, fieldText, h, RangeKind.type,
      RangeKind.value, Value.number, hread]
  | decimal =>
    simp [Held.compare, Held.text, Held.record, canonical, order, compareField, fieldText, h, RangeKind.type,
      RangeKind.value, Value.asDecimal, fromInvariantString_toInvariantString]
  | boolean =>
    obtain ⟨a, ha⟩ := a
    obtain ⟨b, hb⟩ := b
    change Bool at a b
    simp only [Held.compare, Held.text, Held.record, canonical, order, compareField, fieldText, h, RangeKind.type,
      RangeKind.value, Value.number]
    cases a <;> cases b <;> rfl
  | option => exact absurd rfl hkind.1
  | enum => exact absurd rfl hkind.2.1
  | date => exact absurd rfl hkind.2.2

theorem serial_normal (d : Date) : d.normal.serial = d.serial / 2 * 2 := by
  unfold Date.normal
  split
  · next hserial => rw [hserial]
  · rfl

theorem date_ext {d e : Date} (h : d.serial = e.serial) : d = e := by
  obtain ⟨serial, known, bounded⟩ := d
  dsimp only at h
  subst h
  rfl

theorem order_date (h : field.type = .date) (a b : Held field .date) :
    order (canonical a.text field) (canonical b.text field) field =
        Ord.compare (a.1.serial / 2) (b.1.serial / 2) := by
  rw [← compare_dateText]
  simp [Held.text, Held.record, canonical, order, fieldText, h, RangeKind.value, Value.asDate]

theorem compare_date (h : field.type = .date) (a b : Held field .date) :
    a.compare b = Ord.compare a.1.serial b.1.serial := by
  rw [← compare_cast]
  simp [Held.compare, Held.record, compareField, h, RangeKind.value, Value.number]

/-- A date's text lies in the range of its day. -/
theorem interval_date {low high value : Held field .date} (h : field.type = .date) (hlow : low.1.isClosing = false)
    (hhigh : high.1.isClosing = false) :
    (matchesValue [[{compare := .between, value := low.text, upper := high.text}]] value.text field = true ↔
      low.compare value ≠ .gt ∧ value.compare high ≠ .gt) ↔
      ¬ (value.1.isClosing = true ∧ value.1.normal = high.1 ∧ low.1.serial ≤ high.1.serial) := by
  rw [matches_between, order_date h, order_date h, compare_date h, compare_date h]
  generalize low.1 = low at hlow
  generalize high.1 = high at hhigh
  generalize value.1 = value
  change Date at low high value
  have hknown := value.known
  have hlowKnown := low.known
  have hhighKnown := high.known
  have hnormal : value.normal = high ↔ value.serial / 2 * 2 = high.serial := by
    rw [← serial_normal]
    exact ⟨fun heq => by rw [heq], date_ext⟩
  have hclosing : ∀ d : Date, d.isClosing = true ↔ d.serial ≠ 0 ∧ d.serial % 2 = 1 := by
    intro d
    simp [Date.isClosing, Date.isUndefined]
  rw [← Bool.not_eq_true, hclosing] at hlow hhigh
  rw [hnormal, hclosing]
  simp only [Ne, compare_lt_iff_lt, compare_gt_iff_gt]
  omega

/-! ### The value of a bound -/

theorem evaluatedInteger_intText {bits : Nat} {n : Int} (hlow : -2 ^ (bits - 1) ≤ n) (hhigh : n < 2 ^ (bits - 1)) :
    evaluatedInteger bits (intText n) = some n := by
  have hdigits : ∀ c ∈ natText n.natAbs, isDigit c = true := fun _ hc => isDigit_natText hc
  obtain ⟨c, rest, hnat⟩ := List.exists_cons_of_ne_nil (natText_ne_nil n.natAbs)
  have hc : isDigit c = true := hdigits c (hnat ▸ List.mem_cons_self)
  have hsign : c ≠ Ch.minus ∧ c ≠ Ch.plus := by
    constructor <;> rintro rfl <;> cases hc
  have hfound : (strtol 10 (intText n)).filter
      (fun m => decide (-2 ^ (bits - 1) ≤ m) && decide (m < 2 ^ (bits - 1))) = some n := by
    rw [strtol_intText, Option.filter_some, if_pos]
    simp [hlow, hhigh]
  unfold evaluatedInteger
  by_cases hnegative : n < 0
  · have htext : intText n = Ch.minus :: natText n.natAbs := by simp [intText, hnegative]
    have hspace : (Ch.minus :: natText n.natAbs).dropWhile isSpace = Ch.minus :: natText n.natAbs :=
      List.dropWhile_cons_of_neg (by decide)
    rw [if_neg (by simp [htext]), ← hfound, htext]
    dsimp only
    rw [hspace, if_pos]
    simpa using hdigits
  · have htext : intText n = natText n.natAbs := by simp [intText, hnegative]
    have hspace : (natText n.natAbs).dropWhile isSpace = natText n.natAbs := by
      rw [hnat]
      exact List.dropWhile_cons_of_neg (by simp [isSpace_digit hc])
    rw [if_neg (by simp [htext, natText_ne_nil]), ← hfound, htext]
    dsimp only
    rw [hspace, if_pos]
    simpa [hnat, hsign] using hdigits

/-- A date's text is read as its day. -/
theorem evaluatedDate_text {d : Date} (h : d.isUndefined = false) :
    evaluatedDate d.toInvariantString = some d.normal := by
  obtain ⟨hyear, hy, hm, hd⟩ := civil_bounds h
  obtain ⟨y₁, y₂, y₃, y₄, m₁, m₂, d₁, d₂, ⟨hyears, hmonths, hdays⟩, -, htext⟩ := date_digits h
  have hread : ∀ width n, padded width n ≠ [] → (strtol 10 (padded width n)).getD 0 = (n : Int) := by
    intro width n hne
    rw [strtol_digits (digits_padded width n) hne, digitsValue_padded]
    rfl
  have hready := hread 4 d.civil.year.toNat (by simp [hyears])
  have hreadm := hread 2 d.civil.month (by simp [hmonths])
  have hreadd := hread 2 d.civil.day (by simp [hdays])
  rw [hyears] at hready
  rw [hmonths] at hreadm
  rw [hdays] at hreadd
  have hfields : Date.fromYmd (part d.toInvariantString 0 4) (toUnsigned (part d.toInvariantString 5 2))
      (toUnsigned (part d.toInvariantString 8 2)) = d.normal := by
    rw [← Date.fromYmd_civil h, ← hyear, htext]
    show Date.fromYmd ((strtol 10 [y₁, y₂, y₃, y₄]).getD 0) (toUnsigned ((strtol 10 [m₁, m₂]).getD 0))
      (toUnsigned ((strtol 10 [d₁, d₂]).getD 0)) = _
    rw [hready, hreadm, hreadd, toUnsigned_ofNat (by omega), toUnsigned_ofNat (by omega)]
  have hdefined : d.normal.isUndefined = false := by
    have hserial : d.serial ≠ 0 := by simpa [Date.isUndefined] using h
    have hknown := d.known
    simp only [Date.isUndefined, serial_normal, decide_eq_false_iff_not]
    omega
  have hlong : ¬ (d.toInvariantString.length < 10 ∨ d.toInvariantString[4]? ≠ some Ch.minus ∨
      d.toInvariantString[7]? ≠ some Ch.minus) := by simp [htext]
  rw [evaluatedDate, if_neg (by simp [htext]), if_neg hlong, hfields]
  simp [hdefined]

theorem normal_eq_iff (d : Date) : d.normal = d ↔ d.isClosing = false := by
  refine ⟨fun h => ?_, Date.normal_of_not_closing⟩
  have hserial := congrArg Date.serial h
  rw [serial_normal] at hserial
  simp only [Date.isClosing, Bool.and_eq_false_iff, decide_eq_false_iff_not]
  exact .inr (by omega)

variable (platform : Platform table)

theorem boundValue_text {value : FieldHolds .text} (h : Storage.Fits field .text value) :
    boundValue platform field .text value = .ok value := by
  unfold boundValue
  split
  · next hnil => exact congrArg Except.ok hnil.symm
  · have hread := (setFieldText_iff platform.language field .text value h).mpr trivial
    show (setFieldText platform.language field value .text).mapError ColumnError.text = .ok value
    rw [show setFieldText platform.language field value .text = .ok value from hread]
    rfl

theorem boundValue_code {value : FieldHolds .code} (h : Storage.Fits field .code value) :
    boundValue platform field .code value.1 = .ok value := by
  unfold boundValue
  split
  · next hnil => exact congrArg Except.ok (Subtype.ext hnil.symm)
  · have hread := (setFieldText_iff platform.language field .code value h).mpr trivial
    show (setFieldText platform.language field value.1 .code).mapError ColumnError.text = .ok value
    rw [show setFieldText platform.language field value.1 .code = .ok value from hread]
    rfl

theorem intText_ne_nil (n : Int) : intText n ≠ [] := by simp [intText, natText_ne_nil]

theorem boundValue_integer (n : Int32) : boundValue platform field .integer (intText n.toInt) = .ok n := by
  have hlow := n.le_toInt
  have hhigh := n.toInt_lt
  unfold boundValue
  rw [if_neg (intText_ne_nil _)]
  show (typed field _ (evaluatedInteger 32 (intText n.toInt))).map Int32.ofInt = .ok n
  rw [evaluatedInteger_intText hlow hhigh]
  exact congrArg Except.ok (Int32.ofInt_toInt n)

theorem boundValue_bigInteger (n : Int64) : boundValue platform field .bigInteger (intText n.toInt) = .ok n := by
  have hlow := n.le_toInt
  have hhigh := n.toInt_lt
  unfold boundValue
  rw [if_neg (intText_ne_nil _)]
  show (typed field _ (evaluatedInteger 64 (intText n.toInt))).map Int64.ofInt = .ok n
  rw [evaluatedInteger_intText hlow hhigh]
  exact congrArg Except.ok (Int64.ofInt_toInt n)

theorem boundValue_boolean (b : Bool) : boundValue platform field .boolean (booleanText b) = .ok b := by
  cases b <;> rfl

theorem boundValue_decimal (d : Decimal) :
    boundValue platform field .decimal d.toInvariantString = platform.declaredPlaces field d := by
  have hblank := toInvariantString_ne_blank d
  have hne : d.toInvariantString ≠ [] := by
    intro hnil
    exact hblank (by rw [hnil]; rfl)
  have hread : evaluatedDecimal d.toInvariantString = some d := by
    rw [evaluatedDecimal, if_neg hblank, fromInvariantString_toInvariantString]
    rfl
  unfold boundValue
  rw [if_neg hne]
  show (typed field _ (evaluatedDecimal d.toInvariantString) >>= platform.declaredPlaces field) = _
  rw [hread]
  rfl

theorem boundValue_date (d : Date) : boundValue platform field .date d.toInvariantString = .ok d.normal := by
  unfold boundValue
  cases h : d.isUndefined with
  | true =>
    have htext : d.toInvariantString = [] := by rw [Date.toInvariantString, h, if_pos rfl]
    have hserial : d.serial = 0 := by simpa [Date.isUndefined] using h
    rw [if_pos htext]
    refine congrArg Except.ok (date_ext ?_)
    rw [serial_normal, hserial]
    rfl
  | false =>
    have hne : d.toInvariantString ≠ [] := by simp [Date.toInvariantString, h]
    rw [if_neg hne]
    show typed field _ (evaluatedDate d.toInvariantString) = .ok d.normal
    rw [evaluatedDate_text h]
    rfl

theorem memberOrdinal_eq (field : FieldDef) (text : Bytes) :
    memberOrdinal field text = Storage.memberOrdinal field text := by
  have hblank : (fun c : UInt8 => decide (c = Ch.blank)) = isBlank := rfl
  unfold memberOrdinal Storage.memberOrdinal
  simp only [hblank, List.drop_one, Bool.and_eq_true, decide_eq_true_eq, and_assoc]
  rfl

theorem stoi_bounds {text : Bytes} {n : Int} (h : stoi text = .ok n) : -2 ^ 31 ≤ n ∧ n < 2 ^ 31 := by
  unfold stoi ranged at h
  split at h
  · cases h
  · split at h
    · next hrange =>
      cases h
      exact hrange
    · cases h

theorem ofInt_eq_iff {n : Int} (h : -2 ^ 31 ≤ n ∧ n < 2 ^ 31) (ordinal : Int32) :
    Int32.ofInt n = ordinal ↔ n = ordinal.toInt := by
  constructor
  · rintro rfl
    exact (Int32.toInt_ofInt_of_le h.1 h.2).symm
  · rintro rfl
    exact Int32.ofInt_toInt ordinal

/-- What a column reads of a member's text. -/
theorem columnOrdinal_iff (text : Bytes) (ordinal : Int32) :
    ((stoi text).map Int32.ofInt).mapError ColumnError.text = .ok ordinal ↔ stoi text = .ok ordinal.toInt := by
  cases hread : stoi text with
  | error refusal => exact iff_of_false nofun nofun
  | ok n =>
    show Except.ok (Int32.ofInt n) = .ok ordinal ↔ _
    rw [Except.ok.injEq, Except.ok.injEq, ofInt_eq_iff (stoi_bounds hread)]

theorem boundValue_option (ordinal : Int32) :
    boundValue platform field .option (memberText field ordinal) = .ok ordinal ↔ Named field ordinal := by
  unfold boundValue Named
  split
  · show Except.ok (0 : Int32) = .ok ordinal ↔ _
    rw [Except.ok.injEq, eq_comm]
  · show typedOrdinal platform field .option _ = .ok ordinal ↔ _
    rw [typedOrdinal, memberRead, memberOrdinal_eq]
    by_cases hnumber : (Storage.memberOrdinal field (memberText field ordinal)).all
        (fun c => decide (c = Ch.minus) || isDigit c) = true
    · rw [if_pos hnumber]
      have hall : ∀ c ∈ Storage.memberOrdinal field (memberText field ordinal), c = Ch.minus ∨ isDigit c =
          true := by
        simpa using hnumber
      exact (columnOrdinal_iff _ ordinal).trans (and_iff_right hall).symm
    · rw [if_neg hnumber]
      refine iff_of_false nofun fun hnamed => hnumber ?_
      simpa using hnamed.1

theorem boundValue_enum (ordinal : Int32) :
    boundValue platform field .enum (memberText field ordinal) = .ok ordinal ↔ Named field ordinal :=
  boundValue_option platform ordinal

theorem valueOf_mem {values : List EnumValueDef} {ordinal : Int32} {v : EnumValueDef}
    (h : valueOf values ordinal = some v) : v ∈ values := by
  unfold valueOf at h
  split at h
  · cases h
  · split at h
    · next hget =>
      split at h
      · obtain rfl := Option.some.inj h
        exact List.mem_of_getElem? hget
      · exact (Search.search_some h).1
    · exact (Search.search_some h).1

/-- A text that is its member's own is read as the member. -/
theorem Own.read {ordinal : Int32} (h : Own field ordinal) : memberRead field ordinal = intText ordinal.toInt := by
  obtain ⟨v, hv, hcalled⟩ : ∃ v ∈ field.values, (sameText v.name (memberText field ordinal) ||
      sameText v.caption (memberText field ordinal)) = true := by
    have hnumber := h.number
    unfold memberText at hnumber ⊢
    cases hvalue : valueOf field.values ordinal with
    | none => exact absurd (intText_digits _) (by simpa [hvalue] using hnumber)
    | some v =>
      refine ⟨v, valueOf_mem hvalue, ?_⟩
      dsimp only
      split <;> simp [sameText_refl]
  obtain ⟨w, hw⟩ := Option.isSome_iff_exists.mp (List.find?_isSome (p := fun v =>
    sameText v.name (memberText field ordinal) || sameText v.caption (memberText field ordinal)).mpr ⟨v, hv, hcalled⟩)
  have hfound := List.find?_some hw
  rw [memberRead, memberOrdinal]
  dsimp only
  rw [if_neg h.blank, if_neg h.number, if_neg (by simp [h.quotes]), hw]
  dsimp only
  rw [h.alone w (List.mem_of_find?_eq_some hw) hfound]

theorem readInOrder_intText (m n : Int32) : ReadInOrder (intText m.toInt) (intText n.toInt) ↔ m ≤ n := by
  rw [ReadInOrder, stoll_int32, stoll_int32, Int32.le_iff_toInt_le]

theorem Own.named {ordinal : Int32} (h : Own field ordinal) : Named field ordinal := by
  rw [Named, if_neg fun hnil => h.blank (by rw [hnil]; rfl), h.read, memberOrdinal_intText]
  exact ⟨by simpa using intText_digits ordinal.toInt, stoi_int32 ordinal⟩

theorem MembersKept.of_own {low high value : Int32}
    (hbounds : Bounds (memberText field low) (memberText field high)) (hlow : Own field low) (hhigh : Own field high)
    (hvalue : Own field value) : MembersKept field low high value where
  bounds := hbounds
  lower := hlow.named
  upper := hhigh.named
  between := by
    rw [hlow.read, hhigh.read, hvalue.read, readInOrder_intText, readInOrder_intText]

/-- What is read of members is in order where the filter finds it so. -/
theorem order_member_iff (hfield : byMember field = true) (low high : Bytes) :
    (order low high field ≠ .gt ↔ ReadInOrder low high) ∧ (order high low field ≠ .lt ↔ ReadInOrder low high) := by
  have htype : field.type = .option ∨ field.type = .enum := by simpa [byMember] using hfield
  have hswap : order high low field = (order low high field).swap := by
    rcases htype with htype | htype <;>
    · simp only [order, htype]
      cases stoll low <;> cases stoll high <;> exact Std.OrientedOrd.eq_swap
  have horder : order low high field ≠ .gt ↔ ReadInOrder low high := by
    unfold ReadInOrder
    rcases htype with htype | htype <;>
    · simp only [order, htype]
      cases stoll low with
      | none => rfl
      | some i =>
        cases stoll high with
        | none => rfl
        | some j => exact compare_gt_iff_gt.not.trans Int.not_lt
  rw [hswap, ← horder]
  cases order low high field <;> decide

/-- A range of members is their interval where they are read in order. -/
theorem interval_member (ordinal : Held field kind → Int32) (hfield : byMember field = true)
    (htext : ∀ v, v.text = memberText field (ordinal v))
    (hcompare : ∀ a b, a.compare b = Ord.compare (ordinal a).toInt (ordinal b).toInt) (low high value : Held field kind) :
    (matchesValue [[{compare := .between, value := low.text, upper := high.text}]] value.text field = true ↔
      low.compare value ≠ .gt ∧ value.compare high ≠ .gt) ↔
      (ReadInOrder (memberRead field (ordinal low)) (memberRead field (ordinal value)) ∧
        ReadInOrder (memberRead field (ordinal value)) (memberRead field (ordinal high)) ↔
          ordinal low ≤ ordinal value ∧ ordinal value ≤ ordinal high) := by
  have hcanonical : ∀ text, canonical text field = memberOrdinal field text := by
    intro text
    unfold byMember at hfield
    unfold canonical
    split <;> simp_all
  rw [matches_between, (order_member_iff hfield _ _).1, (order_member_iff hfield _ _).2]
  simp only [hcanonical, htext, hcompare, Ne, compare_gt_iff_gt, Int.not_lt, memberRead, Int32.le_iff_toInt_le]

end Kinds

/-! ### The range -/

/-- What a range of a kind owes beside its two bounds. -/
theorem rangeKept_of_ordered (platform : Platform table) (field : Declared table) {kind : RangeKind}
    (h : (declaration field).type = kind.type) (hkind : kind ≠ .option ∧ kind ≠ .enum ∧ kind ≠ .date)
    (low high value : Held (declaration field) kind) :
    RangeKept platform field low high value ↔ Bounds low.text high.text ∧
      boundValue platform (declaration field) kind low.text = .ok low.1 ∧
      boundValue platform (declaration field) kind high.text = .ok high.1 := by
  rw [rangeKept_iff]
  have hinterval := interval_of_order (order_held h hkind value low) (order_held h hkind value high)
  exact ⟨fun ⟨hbounds, _, hvalues⟩ => ⟨hbounds, hvalues⟩, fun ⟨hbounds, hvalues⟩ => ⟨hbounds, hinterval, hvalues⟩⟩

/-- A member's range. -/
theorem rangeKept_of_members (platform : Platform table) (field : Declared table) {kind : RangeKind}
    (ordinal : Held (declaration field) kind → Int32) (hfield : byMember (declaration field) = true)
    (htext : ∀ v, v.text = memberText (declaration field) (ordinal v))
    (hcompare : ∀ a b, a.compare b = Ord.compare (ordinal a).toInt (ordinal b).toInt)
    (hnamed : ∀ v, boundValue platform (declaration field) kind (memberText (declaration field) (ordinal v)) = .ok v.1 ↔
      Named (declaration field) (ordinal v)) (low high value : Held (declaration field) kind) :
    RangeKept platform field low high value ↔
      MembersKept (declaration field) (ordinal low) (ordinal high) (ordinal value) := by
  rw [rangeKept_iff, interval_member ordinal hfield htext hcompare, htext, htext, hnamed, hnamed]
  exact ⟨fun ⟨hbounds, hbetween, hl, hh⟩ => ⟨hbounds, hl, hh, hbetween⟩,
    fun ⟨hbounds, hl, hh, hbetween⟩ => ⟨hbounds, hbetween, hl, hh⟩⟩

/-- **When a range is the closed interval and can be read back.** -/
theorem rangeKept_iff_readable (platform : Platform table) (field : Declared table) {kind : RangeKind}
    (h : (declaration field).type = kind.type) (low high value : Held (declaration field) kind) :
    RangeKept platform field low high value ↔ Readable platform (declaration field) kind low.1 high.1 value.1 := by
  cases kind with
  | text =>
    have htext : ∀ v : Held (declaration field) .text, v.text = v.1 := by
      intro v
      simp [Held.text, fieldText, h, Held.record, RangeKind.value, Value.characters]
    rw [rangeKept_of_ordered platform field h (by decide), htext, htext]
    exact and_iff_left ⟨boundValue_text platform low.2, boundValue_text platform high.2⟩
  | code =>
    have htext : ∀ v : Held (declaration field) .code, v.text = v.1.1 := by
      intro v
      simp [Held.text, fieldText, h, Held.record, RangeKind.value, Value.characters]
    rw [rangeKept_of_ordered platform field h (by decide), htext, htext]
    exact and_iff_left ⟨boundValue_code platform low.2, boundValue_code platform high.2⟩
  | integer =>
    have htext : ∀ v : Held (declaration field) .integer, v.text = intText (Int32.toInt v.1) := by
      intro v
      simp [Held.text, fieldText, h, Held.record, RangeKind.value, Value.number]
    rw [rangeKept_of_ordered platform field h (by decide), htext, htext]
    exact iff_of_true ⟨bounds_of_plain (intText_plain _) (intText_plain _), boundValue_integer platform low.1,
      boundValue_integer platform high.1⟩ trivial
  | bigInteger =>
    have htext : ∀ v : Held (declaration field) .bigInteger, v.text = intText (Int64.toInt v.1) := by
      intro v
      simp [Held.text, fieldText, h, Held.record, RangeKind.value, Value.number]
    rw [rangeKept_of_ordered platform field h (by decide), htext, htext]
    exact iff_of_true ⟨bounds_of_plain (intText_plain _) (intText_plain _), boundValue_bigInteger platform low.1,
      boundValue_bigInteger platform high.1⟩ trivial
  | decimal =>
    have htext : ∀ v : Held (declaration field) .decimal, v.text = Decimal.toInvariantString v.1 := by
      intro v
      simp [Held.text, fieldText, h, Held.record, RangeKind.value, Value.asDecimal]
    rw [rangeKept_of_ordered platform field h (by decide), htext, htext]
    obtain ⟨hlow, hdots⟩ := decimal_plain low.1
    have hbounds : Bounds (Decimal.toInvariantString low.1) (Decimal.toInvariantString high.1) :=
      ⟨spelled_of_plain hlow, spelled_of_plain (decimal_plain high.1).1, hdots⟩
    rw [and_iff_right hbounds]
    exact and_congr (boundValue_decimal platform low.1 ▸ Iff.rfl) (boundValue_decimal platform high.1 ▸ Iff.rfl)
  | boolean =>
    have htext : ∀ v : Held (declaration field) .boolean, v.text = booleanText v.1 := by
      rintro ⟨v, hv⟩
      change Bool at v
      simp only [Held.text, fieldText, h, Held.record, RangeKind.value, Value.number]
      cases v <;> rfl
    have hspelled : ∀ b, Spelled (booleanText b) := by
      intro b
      cases b <;> exact ⟨by decide, .inl (by decide)⟩
    have hdots : ∀ b, ¬ [Ch.dot, Ch.dot] <:+: booleanText b := by
      intro b
      cases b <;> exact not_dots_of_not_mem (by decide)
    rw [rangeKept_of_ordered platform field h (by decide), htext, htext]
    exact iff_of_true ⟨⟨hspelled _, hspelled _, hdots _⟩, boundValue_boolean platform low.1,
      boundValue_boolean platform high.1⟩ trivial
  | option =>
    have htext : ∀ v : Held (declaration field) .option, v.text = memberText (declaration field) v.1 := by
      intro v
      simp [Held.text, fieldText, h, Held.record, RangeKind.value, Value.ordinal]
    refine @rangeKept_of_members _ platform field .option (fun v => v.1) (by simp [byMember, h]) htext (fun a b => ?_)
      (fun v => boundValue_option platform v.1) low high value
    simp [Held.compare, compareField, h, Held.record, RangeKind.value, Value.number]
  | enum =>
    have htext : ∀ v : Held (declaration field) .enum, v.text = memberText (declaration field) v.1 := by
      intro v
      simp [Held.text, fieldText, h, Held.record, RangeKind.value, Value.ordinal]
    refine @rangeKept_of_members _ platform field .enum (fun v => v.1) (by simp [byMember, h]) htext (fun a b => ?_)
      (fun v => boundValue_enum platform v.1) low high value
    simp [Held.compare, compareField, h, Held.record, RangeKind.value, Value.number]
  | date =>
    have htext : ∀ v : Held (declaration field) .date, v.text = Date.toInvariantString v.1 := by
      intro v
      simp [Held.text, fieldText, h, Held.record, RangeKind.value, Value.asDate]
    have hvalue : ∀ v : Held (declaration field) .date,
        boundValue platform (declaration field) .date v.text = .ok v.1 ↔ v.1.isClosing = false := by
      intro v
      rw [htext, boundValue_date, Except.ok.injEq]
      exact normal_eq_iff v.1
    have hbounds : Bounds low.text high.text := by
      rw [htext, htext]
      exact bounds_of_plain (date_plain _) (date_plain _)
    rw [rangeKept_iff, hvalue, hvalue, and_iff_right hbounds]
    constructor
    · rintro ⟨hinterval, hlow, hhigh⟩
      exact ⟨hlow, hhigh, (interval_date h hlow hhigh).mp hinterval⟩
    · rintro ⟨hlow, hhigh, hother⟩
      exact ⟨(interval_date h hlow hhigh).mpr hother, hlow, hhigh⟩

/-! ### Ranges of names -/

def nameField : FieldDef := ⟨1, ascii "Name", ascii "Name", .text, .normal, 20, []⟩

def names : TableDef :=
  { name := ascii "Names"
    caption := ascii "Names"
    fields := [nameField]
    keys := [{fields := [1]}]
    sorted := by decide
    keyed := by decide
    numbered := by decide }

def nameNo : Declared names := ⟨1, by decide⟩

def undeclared : Platform names := ⟨1033, fun _ d => .ok d, fun _ _ => []⟩

def nameOf (text : Bytes) (h : Text.checkLength text 20 = .ok ()) : Held (declaration nameNo) .text := ⟨text, h⟩

theorem rangeKept_of_letters :
    RangeKept undeclared nameNo (nameOf (ascii "A&B") rfl) (nameOf (ascii "M (old)") rfl)
        (nameOf (ascii "B") rfl) :=
  (rangeKept_iff_readable undeclared nameNo rfl _ _ _).mpr
    ⟨⟨by decide, .inr (by decide)⟩, ⟨by decide, .inr (by decide)⟩, not_dots_of_not_mem (by decide)⟩

/-- The dots of the lower bound are taken for those of the range. -/
theorem range_of_dots :
    ¬ RangeKept undeclared nameNo (nameOf (ascii "A..B") rfl) (nameOf (ascii "M") rfl)
        (nameOf (ascii "C") rfl) := by
  intro h
  have hbounds := (rangeBounds_iff _ _).mp ⟨h.lowerText, h.upperText⟩
  exact hbounds.2.2 ⟨ascii "A", ascii "B", rfl⟩

end Agiru.Filter
