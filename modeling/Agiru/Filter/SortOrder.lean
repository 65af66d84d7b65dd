import Agiru.Filter.RangeBack
import Agiru.Storage.TextOrder

/-! The order of records in a field, and the filter for what is not behind one of them.

The filter compares texts, and numbers where it reads them; the records are compared by their values, but durations
by their texts (`sameOrder_iff`). -/
namespace Agiru.Filter
open Bytes Storage

/-! ### The two orders -/

/-- `'..' + Literally(text)`. -/
def upTo (text : Bytes) : Bytes := Ch.dot :: Ch.dot :: literally text

/-- Two values of a type that has numbers or times. -/
inductive Ranked : FieldType → Value → Value → Prop
  | integer (m n : Int32) : Ranked .integer (.integer m) (.integer n)
  | bigInteger (m n : Int64) : Ranked .bigInteger (.bigInteger m) (.bigInteger n)
  | decimal (d e : Decimal) : Ranked .decimal (.decimal d) (.decimal e)
  | boolean (p q : Bool) : Ranked .boolean (.boolean p) (.boolean q)
  | option (m n : Int32) : Ranked .option (.option m) (.option n)
  | enum (m n : Int32) : Ranked .enum (.option m) (.option n)
  | date (d e : Date) : Ranked .date (.date d) (.date e)
  | time (s t : Time) : Ranked .time (.time s) (.time t)
  | dateTime (s t : DateTime) : Ranked .dateTime (.dateTime s) (.dateTime t)
  | duration (m n : Int64) : Ranked .duration (.duration m) (.duration n)

/-- The order of numbers, and of times. -/
def valueOrder : Value → Value → Ordering
  | .decimal d, .decimal e => cmp d.rational e.rational
  | x, y => Ord.compare x.number y.number

/-- The filter, the records and their values have one order. -/
structure SameOrder (field : FieldDef) (a b : Record) : Prop where
  filter : (RecordFilter.Bound.mk field (parseFilter (upTo (fieldText b field))) false).passes a = true ↔
    compareField a b field ≠ .gt
  values : compareField a b field = valueOrder (a field.no) (b field.no)

/-! ### When -/

/-- What the filter reads of a member's literal. -/
def literalRead (field : FieldDef) (ordinal : Int32) : Bytes :=
  memberOrdinal field (unquote (literally (memberText field ordinal)))

/-- Members whose texts are read in the order of their ordinals. A blank text leaves the filter open, so only a
member above it is out of order. -/
def MembersInOrder (field : FieldDef) (m n : Int32) : Prop :=
  if trim (literally (memberText field n)) = [] then m ≤ n
  else ReadInOrder (memberRead field m) (literalRead field n) ↔ m ≤ n

/-- Values that the filter and the records have in the order of the values. -/
def InOrder (field : FieldDef) (x y : Value) : Prop :=
  match field.type with
  | .option | .enum => MembersInOrder field x.ordinal y.ordinal
  | .date => ¬ (x.asDate.isClosing = true ∧ x.asDate.normal = y.asDate)
  | .dateTime =>
    place x.asDateTime ≤ place y.asDateTime ↔ x.asDateTime.milliseconds ≤ y.asDateTime.milliseconds
  | .duration => WrittenInOrder x.number y.number
  | _ => True

/-! ### The filter -/

theorem trim_upTo (text : Bytes) : trim (upTo text) = Ch.dot :: Ch.dot :: (literally text).rdropWhile isSpace :=
  trim_around [] (literally text)

theorem parseFilter_upTo (text : Bytes) :
    parseFilter (upTo text) = [[{
      compare := .between
      upper := unquote (literally text)
      openLower := true
      openUpper := trim (literally text) = [] }]] := by
  have hsplit : ∀ separator, separator ≠ Ch.quote → separator ≠ Ch.dot → special separator = true →
      splitOutsideQuotes (upTo text) separator = [upTo text] := by
    intro separator hquote hdot hspecial
    have hend := splitFrom_literally hquote hspecial text ([] ++ [Ch.dot] ++ [Ch.dot]) []
    rw [List.append_nil] at hend
    rw [splitOutsideQuotes, upTo, splitFrom_dot hdot, splitFrom_dot hdot, hend, splitFrom]
    rfl
  have hhead : ∀ c, special c = true → c ≠ Ch.quote → c ≠ Ch.dot → (trim (upTo text)).head? ≠ some c := by
    intro c _ _ hdot hhead
    rw [trim_upTo] at hhead
    exact hdot (Option.some.inj hhead).symm
  have hparse := parseFilter_atom (hsplit Ch.bar (by decide) (by decide) rfl)
    (hsplit Ch.ampersand (by decide) (by decide) rfl) (by simp [trim_upTo])
    (by simp [grouped, trim_upTo, show Ch.dot ≠ Ch.openParen by decide])
  have hdots : splitDots (trim (upTo text)) = some ([], (literally text).rdropWhile isSpace) := by
    rw [trim_upTo]
    rfl
  rw [hparse, readAtom_dots hhead hdots, trim_rdropWhile, unquote_congr (trim_rdropWhile (literally text))]
  rfl

section
variable {field : FieldDef} {a b : Record}

/-- The filter compares what is read of the literal, unless that is an open end. -/
theorem passes_upTo (text : Bytes) :
    matchesValue (parseFilter (upTo text)) (fieldText a field) field = true ↔
      trim (literally text) = [] ∨
        order (canonical (fieldText a field) field) (canonical (unquote (literally text)) field) field ≠ .gt := by
  rw [parseFilter_upTo]
  simp only [matchesValue, List.any_cons, List.all_cons, List.any_nil, List.all_nil, Bool.and_true, Bool.or_false,
    List.cons_ne_nil, decide_false, Bool.false_or]
  rw [satisfies_eq ⟨by simp, by simp⟩]
  simp [satisfiesCanonical]

/-- Where the literal is read as the text, the filter has the order of the texts. -/
theorem passes_spelled (h : Spelled (fieldText b field)) :
    matchesValue (parseFilter (upTo (fieldText b field))) (fieldText a field) field = true ↔
      order (canonical (fieldText a field) field) (canonical (fieldText b field) field) field ≠ .gt := by
  rw [passes_upTo, or_iff_right h.closed, (unquote_literally _).mpr h]

/-! ### Each type -/

theorem order_of_held (kind : RangeKind) (h : field.type = kind.type)
    (hkind : kind ≠ .option ∧ kind ≠ .enum ∧ kind ≠ .date) {x y : Held field kind}
        (hx : a field.no = kind.value x.1)
    (hy : b field.no = kind.value y.1) :
    order (canonical (fieldText a field) field) (canonical (fieldText b field) field) field =
        compareField a b field := by
  have htext : fieldText a field = x.text ∧ fieldText b field = y.text := ⟨fieldText_congr hx, fieldText_congr hy⟩
  have hcompare : compareField a b field = x.compare y := compareField_congr hx hy
  rw [htext.1, htext.2, hcompare]
  exact order_held h hkind x y

theorem compared_ranked {x y : Value} (h : Ranked field.type x y) (row : Record) :
    RecordFilter.compared row field = fieldText row field := by
  generalize htype : field.type = type at h
  unfold RecordFilter.compared
  cases h <;> rw [htype]

/-- Where the text is read as it is, what is left to settle is the order of the texts. -/
theorem sameOrder_iff_texts (h : Ranked field.type (a field.no) (b field.no))
    (hspelled : Spelled (fieldText b field)) :
    SameOrder field a b ↔
      (order (canonical (fieldText a field) field) (canonical (fieldText b field) field) field ≠ .gt ↔
        compareField a b field ≠ .gt) ∧ compareField a b field = valueOrder (a field.no) (b field.no) := by
  have hfilter : (RecordFilter.Bound.mk field (parseFilter (upTo (fieldText b field))) false).passes a = true ↔
      order (canonical (fieldText a field) field) (canonical (fieldText b field) field) field ≠ .gt := by
    rw [RecordFilter.Bound.passes, compared_ranked h, passes_spelled hspelled]
  exact ⟨fun h => ⟨hfilter.symm.trans h.filter, h.values⟩, fun h => ⟨hfilter.trans h.1, h.2⟩⟩

/-- Texts that are in the values' order, and read as they are, leave one order. -/
theorem sameOrder_of_texts (h : Ranked field.type (a field.no) (b field.no))
    (hspelled : Spelled (fieldText b field))
    (htexts : order (canonical (fieldText a field) field) (canonical (fieldText b field) field) field =
      compareField a b field)
    (hvalues : compareField a b field = valueOrder (a field.no) (b field.no)) : SameOrder field a b := by
  rw [sameOrder_iff_texts h hspelled, htexts]
  exact ⟨Iff.rfl, hvalues⟩

theorem spelled_of_dot {text : Bytes} (hquote : Ch.quote ∉ text) (hdot : Ch.dot ∈ text) : Spelled text :=
  ⟨hquote, .inr (List.any_eq_true.mpr ⟨Ch.dot, hdot, rfl⟩)⟩

theorem spelled_time (t : Time) : Spelled t.toInvariantString ∧ Ch.dot ∈ t.toInvariantString := by
  have hdigits : ∀ width n, Ch.quote ∉ padded width n := by
    intro width n hmem
    exact absurd (digits_padded width n _ hmem) (by decide)
  have hdot : Ch.dot ∈ t.toInvariantString := by simp [Time.toInvariantString]
  refine ⟨spelled_of_dot ?_ hdot, hdot⟩
  simp only [Time.toInvariantString, List.mem_append, hdigits, List.mem_singleton, or_false, false_or]
  decide

theorem spelled_dateTime (t : DateTime) : Spelled t.toInvariantString := by
  unfold DateTime.toInvariantString
  split
  · exact ⟨List.not_mem_nil, .inl rfl⟩
  · obtain ⟨htime, hdot⟩ := spelled_time t.time
    have hdate : Ch.quote ∉ t.date.toInvariantString := fun hmem =>
      absurd (date_plain t.date _ hmem).1 (by decide)
    refine spelled_of_dot ?_ (by simp [hdot])
    simp only [List.mem_append, hdate, htime.noQuote, or_false, false_or]
    decide

theorem spelled_date (d : Date) : Spelled d.toInvariantString := spelled_of_plain fun c hc => (date_plain d c hc).1

theorem spelled_intText (n : Int) : Spelled (intText n) := spelled_of_plain fun c hc => (intText_plain n c hc).1

theorem sameOrder_integer {m n : Int32} (htype : field.type = .integer) (hx : a field.no = .integer m)
    (hy : b field.no = .integer n) : SameOrder field a b := by
  have hspelled : Spelled (fieldText b field) := by
    rw [show fieldText b field = intText n.toInt by simp [fieldText, htype, hy, Value.number]]
    exact spelled_intText _
  refine sameOrder_of_texts (by rw [htype, hx, hy]; exact .integer m n) hspelled
    (order_of_held .integer htype (by decide) (x := ⟨m, trivial⟩) (y := ⟨n, trivial⟩) hx hy) ?_
  simp [compareField, htype, hx, hy, valueOrder]

theorem sameOrder_bigInteger {m n : Int64} (htype : field.type = .bigInteger) (hx : a field.no = .bigInteger m)
    (hy : b field.no = .bigInteger n) : SameOrder field a b := by
  have hspelled : Spelled (fieldText b field) := by
    rw [show fieldText b field = intText n.toInt by simp [fieldText, htype, hy, Value.number]]
    exact spelled_intText _
  refine sameOrder_of_texts (by rw [htype, hx, hy]; exact .bigInteger m n) hspelled
    (order_of_held .bigInteger htype (by decide) (x := ⟨m, trivial⟩) (y := ⟨n, trivial⟩) hx hy) ?_
  simp [compareField, htype, hx, hy, valueOrder]

theorem sameOrder_decimal {d e : Decimal} (htype : field.type = .decimal) (hx : a field.no = .decimal d)
    (hy : b field.no = .decimal e) : SameOrder field a b := by
  have hspelled : Spelled (fieldText b field) := by
    rw [show fieldText b field = e.toInvariantString by simp [fieldText, htype, hy, Value.asDecimal]]
    exact spelled_of_plain (decimal_plain e).1
  refine sameOrder_of_texts (by rw [htype, hx, hy]; exact .decimal d e) hspelled
    (order_of_held .decimal htype (by decide) (x := ⟨d, trivial⟩) (y := ⟨e, trivial⟩) hx hy) ?_
  rw [compareField, htype, hx, hy]
  exact Decimal.compare_rational d e

theorem sameOrder_boolean {p q : Bool} (htype : field.type = .boolean) (hx : a field.no = .boolean p)
    (hy : b field.no = .boolean q) : SameOrder field a b := by
  have hspelled : Spelled (fieldText b field) := by
    rw [show fieldText b field = booleanText q by cases q <;> simp [fieldText, htype, hy, Value.number]]
    cases q <;> exact ⟨by decide, .inl (by decide)⟩
  refine sameOrder_of_texts (by rw [htype, hx, hy]; exact .boolean p q) hspelled
    (order_of_held .boolean htype (by decide) (x := ⟨p, trivial⟩) (y := ⟨q, trivial⟩) hx hy) ?_
  simp [compareField, htype, hx, hy, valueOrder]

theorem sameOrder_time {s t : Time} (htype : field.type = .time) (hx : a field.no = .time s)
    (hy : b field.no = .time t) : SameOrder field a b := by
  have htext : fieldText a field = s.toInvariantString ∧ fieldText b field = t.toInvariantString := by
    simp [fieldText, htype, hx, hy, Value.asTime]
  have hcompare : compareField a b field = Ord.compare s.milliseconds t.milliseconds := by
    simp [compareField, htype, hx, hy, Value.number, compare_cast]
  refine sameOrder_of_texts (by rw [htype, hx, hy]; exact .time s t) (by rw [htext.2]; exact (spelled_time t).1) ?_
    (by simp [compareField, htype, hx, hy, valueOrder])
  rw [htext.1, htext.2, hcompare, ← compare_timeText]
  simp [order, canonical, htype]

/-- Members whose texts are their own are read in order. -/
theorem MembersInOrder.of_own {m n : Int32} (hm : Own field m) (hn : Own field n)
    (hspelled : Spelled (memberText field n)) : MembersInOrder field m n := by
  have hliteral : literalRead field n = intText n.toInt := by
    rw [literalRead, (unquote_literally _).mpr hspelled]
    exact hn.read
  rw [MembersInOrder, if_neg hspelled.closed, hm.read, hliteral, readInOrder_intText]

/-- Members: what is read of the literal is compared, unless it is an open end. -/
theorem sameOrder_member {m n : Int32} (htype : field.type = .option ∨ field.type = .enum)
    (hx : a field.no = .option m) (hy : b field.no = .option n) : SameOrder field a b ↔
        MembersInOrder field m n := by
  have htext : fieldText a field = memberText field m ∧ fieldText b field = memberText field n := by
    rcases htype with htype | htype <;> simp [fieldText, htype, hx, hy, Value.ordinal]
  have hcanonical : ∀ text, canonical text field = memberOrdinal field text := by
    intro text
    rcases htype with htype | htype <;> simp [canonical, htype]
  have hcompared : RecordFilter.compared a field = fieldText a field := by
    rcases htype with htype | htype <;> simp [RecordFilter.compared, htype]
  have hcompare : compareField a b field = Ord.compare m.toInt n.toInt := by
    rcases htype with htype | htype <;> simp [compareField, htype, hx, hy, Value.number]
  have hle : compareField a b field ≠ .gt ↔ m ≤ n := by
    rw [hcompare, Ne, compare_gt_iff_gt, Int32.le_iff_toInt_le]
    omega
  have hfilter : (RecordFilter.Bound.mk field (parseFilter (upTo (fieldText b field))) false).passes a = true ↔
      trim (literally (memberText field n)) = [] ∨ order (memberRead field m) (literalRead field n) field ≠
          .gt := by
    rw [RecordFilter.Bound.passes, hcompared, htext.2, passes_upTo, hcanonical, hcanonical, htext.1]
    rfl
  have hsame : SameOrder field a b ↔
      (trim (literally (memberText field n)) = [] ∨ order (memberRead field m) (literalRead field n) field ≠ .gt ↔
        m ≤ n) := by
    rw [← hfilter, ← hle]
    exact ⟨fun h => h.filter, fun h => ⟨h, by rw [hcompare, hx, hy]; rfl⟩⟩
  rw [hsame, (order_member_iff (by simpa [byMember] using htype) _ _).1, MembersInOrder]
  by_cases hopen : trim (literally (memberText field n)) = []
  · simp [hopen]
  · rw [if_neg hopen, or_iff_right hopen]

/-- Dates: the filter does not tell a closing date from its day. -/
theorem sameOrder_date {d e : Date} (htype : field.type = .date) (hx : a field.no = .date d)
    (hy : b field.no = .date e) : SameOrder field a b ↔ ¬ (d.isClosing = true ∧ d.normal = e) := by
  have htext : fieldText a field = d.toInvariantString ∧ fieldText b field = e.toInvariantString := by
    simp [fieldText, htype, hx, hy, Value.asDate]
  have hcompare : compareField a b field = Ord.compare d.serial e.serial := by
    simp [compareField, htype, hx, hy, Value.number, compare_cast]
  have horder : order (canonical d.toInvariantString field) (canonical e.toInvariantString field) field =
      Ord.compare (d.serial / 2) (e.serial / 2) := by
    rw [← compare_dateText]
    simp [order, canonical, htype]
  have hvalues : compareField a b field = valueOrder (a field.no) (b field.no) := by
    simp [compareField, htype, hx, hy, valueOrder]
  have hclosing : d.isClosing = true ↔ d.serial ≠ 0 ∧ d.serial % 2 =
      1 := by simp [Date.isClosing, Date.isUndefined]
  have hnormal : d.normal = e ↔ d.serial / 2 * 2 = e.serial := by
    rw [← serial_normal]
    exact ⟨fun heq => by rw [heq], date_ext⟩
  have hknown := d.known
  rw [sameOrder_iff_texts (by rw [htype, hx, hy]; exact .date d e) (by rw [htext.2]; exact spelled_date e),
    and_iff_left hvalues, htext.1, htext.2, horder, hcompare, hclosing, hnormal, Ne, Ne, compare_gt_iff_gt,
    compare_gt_iff_gt]
  omega

/-- Instants: the filter compares what they name. -/
theorem sameOrder_dateTime {s t : DateTime} (htype : field.type = .dateTime) (hx : a field.no = .dateTime s)
    (hy : b field.no = .dateTime t) :
    SameOrder field a b ↔ (place s ≤ place t ↔ s.milliseconds ≤ t.milliseconds) := by
  have htext : fieldText a field = s.toInvariantString ∧ fieldText b field = t.toInvariantString := by
    simp [fieldText, htype, hx, hy, Value.asDateTime]
  have hcompare : compareField a b field = Ord.compare (s.milliseconds : Int) t.milliseconds := by
    simp [compareField, htype, hx, hy, Value.number]
  have horder : order (canonical s.toInvariantString field) (canonical t.toInvariantString field) field =
      Ord.compare (place s) (place t) := by
    rw [← compare_dateTimeText]
    simp [order, canonical, htype]
  have hvalues : compareField a b field = valueOrder (a field.no) (b field.no) := by
    simp [compareField, htype, hx, hy, valueOrder]
  rw [sameOrder_iff_texts (by rw [htype, hx, hy]; exact .dateTime s t) (by rw [htext.2]; exact spelled_dateTime t),
    and_iff_left hvalues, htext.1, htext.2, horder, hcompare, Ne, Ne, compare_gt_iff_gt, compare_gt_iff_gt]
  omega

/-- Durations: filter and records compare their texts. -/
theorem sameOrder_duration {m n : Int64} (htype : field.type = .duration) (hx : a field.no = .duration m)
    (hy : b field.no = .duration n) : SameOrder field a b ↔ WrittenInOrder m.toInt n.toInt := by
  have htext : fieldText a field = intText m.toInt ∧ fieldText b field = intText n.toInt := by
    simp [fieldText, htype, hx, hy, Value.number]
  have hcompare : compareField a b field = Ord.compare (intText m.toInt) (intText n.toInt) := by
    simp [compareField, htype, htext]
  have horder : order (canonical (intText m.toInt) field) (canonical (intText n.toInt) field) field =
      compareField a b field := by
    rw [hcompare]
    simp [order, canonical, htype]
  have hvalues : valueOrder (a field.no) (b field.no) = Ord.compare m.toInt n.toInt := by
    rw [hx, hy]
    rfl
  rw [sameOrder_iff_texts (by rw [htype, hx, hy]; exact .duration m n) (by rw [htext.2]; exact spelled_intText _),
    htext.1, htext.2, horder, and_iff_right Iff.rfl, hvalues, hcompare, compare_intText_iff]

/-- **When filters and records have the order of the values**: numbers, truths and times always, dates but a
closing date with its day, durations that are written in their order, and members whose texts are read in it. -/
theorem sameOrder_iff (h : Ranked field.type (a field.no) (b field.no)) :
    SameOrder field a b ↔ InOrder field (a field.no) (b field.no) := by
  unfold InOrder
  generalize htype : field.type = type at h
  generalize hx : a field.no = x at h
  generalize hy : b field.no = y at h
  cases h with
  | integer m n => exact iff_true_intro (sameOrder_integer htype hx hy)
  | bigInteger m n => exact iff_true_intro (sameOrder_bigInteger htype hx hy)
  | decimal d e => exact iff_true_intro (sameOrder_decimal htype hx hy)
  | boolean p q => exact iff_true_intro (sameOrder_boolean htype hx hy)
  | option m n => exact sameOrder_member (.inl htype) hx hy
  | enum m n => exact sameOrder_member (.inr htype) hx hy
  | date d e => exact sameOrder_date htype hx hy
  | time s t => exact iff_true_intro (sameOrder_time htype hx hy)
  | dateTime s t => exact sameOrder_dateTime htype hx hy
  | duration m n => exact sameOrder_duration htype hx hy

end

def waitField : FieldDef := ⟨1, ascii "Wait", ascii "Wait", .duration, .normal, 0, []⟩

theorem sameOrder_iff_wait : InOrder waitField (.duration 10) (.duration 25) ∧
    SameOrder waitField (fun _ => .duration 10) (fun _ => .duration 25) := by
  have horder : InOrder waitField (.duration 10) (.duration 25) := by
    change WrittenInOrder _ _
    decide
  have hranked : Ranked waitField.type (.duration 10) (.duration 25) := .duration 10 25
  exact ⟨horder, (@sameOrder_iff waitField (fun _ => .duration 10) (fun _ => .duration 25) hranked).mpr horder⟩

/-- Ten milliseconds are sorted before nine. -/
theorem duration_sorted_by_text : ¬ ∀ (field : FieldDef) (a b : Record),
    Ranked field.type (a field.no) (b field.no) → SameOrder field a b := by
  intro h
  have hvalues := (h waitField (fun _ => .duration 10) (fun _ => .duration 9) (.duration 10 9)).values
  revert hvalues
  decide

end Agiru.Filter
