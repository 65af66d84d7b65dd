import Agiru.Filter.Normal
import Agiru.Library.Spans
import Agiru.Record.State

/-! The upper limit of a flow filter.

The filters on a field are joined as text, each in parentheses, and the upper limit is the last upper end
in the normal form of what they make. It is where the numbers end that all of the filters accept exactly if
no alternative that accepts any ends above it (`upper_limit_iff`). -/
namespace Agiru.Filter
open Bytes Spans

variable {table : TableDef}
variable {upper : Option Bytes}
variable {e : WithTop Int}

/-- `FilterOn`: the filters on a field in every group. -/
def filterOn (state : Option (RecordState table)) (no : FieldNo) : Option Bytes :=
  match state with
  | none => none
  | some state =>
    let joined := state.filters.foldl
      (fun joined filter =>
        if filter.field ≠ no ∨ filter.text = [] then joined
        else (if joined = [] then joined else joined ++ [Ch.ampersand]) ++
          (Ch.openParen :: (filter.text ++ [Ch.closeParen])))
      []
    if joined = [] then none else some joined

def takeUpper (upper : Option Bytes) (atom : Atom) : Option Bytes :=
  match atom.compare with
  | .equal | .less | .lessOrEqual => some atom.value
  | .between => if atom.openUpper then upper else some atom.upper
  | .notEqual | .greater | .greaterEqual | .like | .notLike => upper

/-- `UpperOf`. -/
def upperOf (text : Bytes) : Option Bytes :=
  (parseFilter text).foldl (fun upper all => all.foldl takeUpper upper) none

/-! ### Numbers -/

section
variable {field : FieldDef}

/-- The number that a text is in a numeric field, a decimal in units of the last place any has. -/
def number (field : FieldDef) (text : Bytes) : Option Int :=
  match field.type with
  | .integer | .bigInteger | .option | .enum => stoll (canonical text field)
  | .decimal =>
    match Decimal.fromInvariantString (canonical text field) with
    | .ok d => some d.value
    | .error _ => none
  | _ => none

/-- The ends of a range, which may be open. -/
def lowerEnd (field : FieldDef) (isOpen : Bool) (text : Bytes) : Option (WithBot Int) :=
  if isOpen then some ⊥ else (number field text).map WithBot.some

def upperEnd (field : FieldDef) (isOpen : Bool) (text : Bytes) : Option (WithTop Int) :=
  if isOpen then some ⊤ else (number field text).map WithTop.some

/-- What an atom asks of a number: a single value or a range whose ends are numbers. -/
def spanOf (field : FieldDef) (atom : Atom) : Option (Span Int) :=
  match atom.compare with
  | .equal => (number field atom.value).map fun n : Int => ⟨n, n⟩
  | .between =>
    (lowerEnd field atom.openLower atom.value).bind fun lower =>
      (upperEnd field atom.openUpper atom.upper).map fun upper => ⟨lower, upper⟩
  | _ => none

def amountField : FieldDef := {no := 1, name := ascii "Amount", caption := [], type := .integer}

example : spanOf amountField (readAtom (ascii "-4")) = some ⟨(-4 : Int), (-4 : Int)⟩ := by decide +kernel
example : spanOf amountField (readAtom (ascii " 1 .. 5 ")) = some ⟨(1 : Int), (5 : Int)⟩ := by decide +kernel
example : spanOf amountField (readAtom (ascii "..7")) = some ⟨⊥, (7 : Int)⟩ := by decide +kernel
example : spanOf amountField (readAtom (ascii "3..")) = some ⟨(3 : Int), ⊤⟩ := by decide +kernel

/-- A field that holds numbers. -/
def Counts (field : FieldDef) : Prop :=
  field.type = .integer ∨ field.type = .bigInteger ∨ field.type = .option ∨ field.type = .enum ∨
    field.type = .decimal

theorem counts_of_number {text : Bytes} {n : Int} (h : number field text = some n) : Counts field := by
  unfold Counts
  unfold number at h
  cases htype : field.type <;> rw [htype] at h <;> first | cases h | simp

theorem order_number {value against : Bytes} {n m : Int} (hvalue : number field value = some n)
    (hagainst : number field against = some m) :
    order (canonical value field) (canonical against field) field = Ord.compare n m := by
  unfold number at hvalue hagainst
  unfold order
  rcases @counts_of_number field value n hvalue with h | h | h | h | h <;>
    rw [h] at hvalue hagainst ⊢ <;> dsimp only at hvalue hagainst ⊢
  · rw [hvalue, hagainst]
  · rw [hvalue, hagainst]
  · rw [hvalue, hagainst]
  · rw [hvalue, hagainst]
  · cases hleft : Decimal.fromInvariantString (canonical value field) with
    | error refusal =>
      rw [hleft] at hvalue
      cases hvalue
    | ok left =>
      cases hright : Decimal.fromInvariantString (canonical against field) with
      | error refusal =>
        rw [hright] at hagainst
        cases hagainst
      | ok right =>
        rw [hleft] at hvalue
        rw [hright] at hagainst
        cases hvalue
        cases hagainst
        exact Decimal.compare_eq left right

/-- A numeric field compares canonical spellings. -/
theorem satisfies_canonical (hcounts : Counts field) {atom : Atom} (value : Bytes)
    (hlike : atom.compare ≠ .like ∧ atom.compare ≠ .notLike) :
    satisfies atom value field =
      satisfiesCanonical {atom with value := canonical atom.value field, upper := canonical atom.upper field}
        (canonical value field) field := by
  unfold satisfies
  rcases hcounts with h | h | h | h | h
  all_goals simp [h, hlike.1, hlike.2, canonical]

theorem satisfies_span {atom : Atom} {span : Span Int} (hspan : spanOf field atom = some span) {value : Bytes}
    {n : Int}
    (hvalue : number field value = some n) : satisfies atom value field = true ↔ span.Admits n := by
  have hcounts := counts_of_number hvalue
  have hnumeric : numeric field = true := by
    rcases hcounts with h | h | h | h | h <;> rw [numeric, h]
  unfold spanOf at hspan
  cases hcompare : atom.compare <;> rw [hcompare] at hspan <;> try cases hspan
  · obtain ⟨m, hm, rfl⟩ := Option.map_eq_some_iff.mp hspan
    rw [satisfies_canonical hcounts value (by simp [hcompare]), satisfiesCanonical]
    dsimp only
    rw [hcompare]
    dsimp only
    rw [sameValue, if_pos hnumeric, order_number hvalue hm, decide_eq_true_iff, compare_eq_iff_eq]
    constructor
    · intro heq
      rw [heq]
      exact ⟨le_rfl, le_rfl⟩
    · intro hadmits
      exact le_antisymm (WithTop.coe_le_coe.mp hadmits.2) (WithBot.coe_le_coe.mp hadmits.1)
  · obtain ⟨lower, hlower, hspan⟩ := Option.bind_eq_some_iff.mp hspan
    obtain ⟨upper, hupper, rfl⟩ := Option.map_eq_some_iff.mp hspan
    rw [satisfies_canonical hcounts value (by simp [hcompare]), satisfiesCanonical]
    dsimp only
    rw [hcompare]
    dsimp only
    rw [Bool.and_eq_true, Bool.or_eq_true, Bool.or_eq_true, decide_eq_true_iff, decide_eq_true_iff]
    apply and_congr
    · unfold lowerEnd at hlower
      split at hlower
      · next hopen =>
        cases hlower
        exact iff_of_true (.inl hopen) bot_le
      · next hclosed =>
        obtain ⟨m, hm, rfl⟩ := Option.map_eq_some_iff.mp hlower
        rw [order_number hvalue hm, or_iff_right hclosed, Ne, compare_lt_iff_lt, not_lt, WithBot.coe_le_coe]
    · unfold upperEnd at hupper
      split at hupper
      · next hopen =>
        cases hupper
        exact iff_of_true (.inl hopen) le_top
      · next hclosed =>
        obtain ⟨m, hm, rfl⟩ := Option.map_eq_some_iff.mp hupper
        rw [order_number hvalue hm, or_iff_right hclosed, Ne, compare_gt_iff_gt, not_lt, WithTop.coe_le_coe]

/-! ### Filters of numbers -/

namespace Phrase

/-- Every atom is a single value or a range of numbers. -/
def Numeric (field : FieldDef) : {level : Level} → Phrase level → Prop
  | _, atom text _ => (spanOf field (readAtom text)).isSome
  | _, blank _ _ => False
  | _, group _ inner _ _ => inner.Numeric field
  | _, part p => p.Numeric field
  | _, and left right => left.Numeric field ∧ right.Numeric field
  | _, conjunction c => c.Numeric field
  | _, or left right => left.Numeric field ∧ right.Numeric field

/-- The numbers that a filter accepts, read as it stands. -/
def numbers (field : FieldDef) : {level : Level} → Phrase level → Set Int
  | _, atom text _ => {n | ∀ span ∈ spanOf field (readAtom text), span.Admits n}
  | _, blank _ _ => ∅
  | _, group _ inner _ _ => inner.numbers field
  | _, part p => p.numbers field
  | _, and left right => left.numbers field ∩ right.numbers field
  | _, conjunction c => c.numbers field
  | _, or left right => left.numbers field ∪ right.numbers field

/-- A filter of numbers is not blank. -/
theorem written : {level : Level} → (phrase : Phrase level) → phrase.Numeric field →
    ∃ c ∈ phrase.text, isSpace c = false
  | _, atom text hatom, _ => by
    by_contra hnone
    apply hatom.written
    rw [trim_eq_nil_iff]
    intro c hc
    by_contra hspace
    exact hnone ⟨c, hc, Bool.eq_false_iff.mpr hspace⟩
  | _, blank _ _, h => h.elim
  | _, group _ inner _ _, _ => ⟨Ch.openParen, by simp [text], rfl⟩
  | _, part p, h => p.written h
  | _, and left right, h => by
    obtain ⟨c, hc, hspace⟩ := left.written h.1
    exact ⟨c, List.mem_append_left _ hc, hspace⟩
  | _, conjunction c, h => c.written h
  | _, or left right, h => by
    obtain ⟨c, hc, hspace⟩ := left.written h.1
    exact ⟨c, List.mem_append_left _ hc, hspace⟩

theorem trim_text_ne_nil {level : Level} {phrase : Phrase level} (h : phrase.Numeric field) : trim phrase.text ≠
    [] := by
  obtain ⟨c, hc, hspace⟩ := phrase.written h
  intro hnil
  rw [trim_eq_nil_iff.mp hnil c hc] at hspace
  cases hspace

theorem groupsWritten : {level : Level} → (phrase : Phrase level) → phrase.Numeric field → phrase.GroupsWritten
  | _, atom _ _, _ => trivial
  | _, blank _ _, h => h.elim
  | _, group _ inner _ _, h => ⟨@trim_text_ne_nil _ _ inner h, inner.groupsWritten h⟩
  | _, part p, h => p.groupsWritten h
  | _, and left right, h => ⟨left.groupsWritten h.1, right.groupsWritten h.2⟩
  | _, conjunction c, h => c.groupsWritten h
  | _, or left right, h => ⟨left.groupsWritten h.1, right.groupsWritten h.2⟩

/-- A text of a number is accepted where the number is. -/
theorem accepts_iff {value : Bytes} {n : Int} (hvalue : number field value = some n) :
    {level : Level} → (phrase : Phrase level) → phrase.Numeric field →
      (phrase.accepts value field = true ↔ n ∈ phrase.numbers field)
  | _, atom text _, h => by
    obtain ⟨span, hspan⟩ := Option.isSome_iff_exists.mp h
    rw [accepts, satisfies_span hspan hvalue]
    show span.Admits n ↔ ∀ span ∈ spanOf field (readAtom text), span.Admits n
    rw [hspan]
    simp
  | _, blank _ _, h => h.elim
  | _, group _ inner _ _, h => accepts_iff hvalue inner h
  | _, part p, h => accepts_iff hvalue p h
  | _, and left right, h => by
    rw [accepts, Bool.and_eq_true, accepts_iff hvalue left h.1, accepts_iff hvalue right h.2]
    rfl
  | _, conjunction c, h => accepts_iff hvalue c h
  | _, or left right, h => by
    rw [accepts, Bool.or_eq_true, accepts_iff hvalue left h.1, accepts_iff hvalue right h.2]
    rfl

end Phrase

/-! ### The normal form -/

/-- The spans of an expression's atoms. -/
def spans (field : FieldDef) (expression : Expression) : List (List (Span Int)) :=
  expression.map fun all => all.filterMap (spanOf field)

theorem mem_admitted_spans {expression : Expression} {n : Int} :
    n ∈ admitted (spans field expression) ↔
      ∃ all ∈ expression, ∀ atom ∈ all, ∀ span ∈ spanOf field atom, span.Admits n := by
  constructor
  · intro h
    obtain ⟨listed, hlisted, hn⟩ := h
    obtain ⟨all, hall, rfl⟩ := List.mem_map.mp hlisted
    refine ⟨all, hall, fun atom hatom span hspan => ?_⟩
    exact hn span (List.mem_filterMap.mpr ⟨atom, hatom, hspan⟩)
  · intro h
    obtain ⟨all, hall, hn⟩ := h
    refine ⟨_, List.mem_map_of_mem hall, fun span hspan => ?_⟩
    obtain ⟨atom, hatom, hread⟩ := List.mem_filterMap.mp hspan
    exact hn atom hatom span hread

theorem mem_spans_both {left right : Expression} (hleft : left ≠ []) (hright : right ≠ []) {n : Int} :
    n ∈ admitted (spans field (both left right)) ↔
      n ∈ admitted (spans field left) ∧ n ∈ admitted (spans field right) := by
  rw [both, if_neg hleft, if_neg hright, mem_admitted_spans, mem_admitted_spans, mem_admitted_spans]
  constructor
  · intro h
    obtain ⟨all, hall, hn⟩ := h
    obtain ⟨a, ha, hjoined⟩ := List.mem_flatMap.mp hall
    obtain ⟨b, hb, rfl⟩ := List.mem_map.mp hjoined
    exact ⟨⟨a, ha, fun atom hatom => hn atom (List.mem_append_left b hatom)⟩,
      b, hb, fun atom hatom => hn atom (List.mem_append_right a hatom)⟩
  · intro h
    obtain ⟨⟨a, ha, hfirst⟩, b, hb, hsecond⟩ := h
    refine ⟨a ++ b, List.mem_flatMap.mpr ⟨a, ha, List.mem_map_of_mem hb⟩, fun atom hatom => ?_⟩
    rcases List.mem_append.mp hatom with hatom | hatom
    · exact hfirst atom hatom
    · exact hsecond atom hatom

/-- The normal form admits the numbers that are written. -/
theorem mem_spans_normal {n : Int} : {level : Level} → (phrase : Phrase level) → phrase.Numeric field →
    (n ∈ admitted (spans field phrase.normal) ↔ n ∈ phrase.numbers field)
  | _, .atom text _, _ => by
    rw [mem_admitted_spans, Phrase.normal]
    simp only [List.mem_singleton, exists_eq_left, forall_eq]
    rfl
  | _, .blank _ _, h => h.elim
  | _, .group _ inner _ _, h => mem_spans_normal inner h
  | _, .part p, h => mem_spans_normal p h
  | _, .and left right, h => by
    rw [Phrase.normal, mem_spans_both left.normal_ne_nil right.normal_ne_nil, mem_spans_normal left h.1,
      mem_spans_normal right h.2]
    rfl
  | _, .conjunction c, h => mem_spans_normal c h
  | _, .or left right, h => by
    have happend : n ∈ admitted (spans field (left.normal ++ right.normal)) ↔
        n ∈ admitted (spans field left.normal) ∨ n ∈ admitted (spans field right.normal) := by
      rw [mem_admitted_spans, mem_admitted_spans, mem_admitted_spans]
      simp only [List.mem_append, or_and_right, exists_or]
    rw [Phrase.normal, happend, mem_spans_normal left h.1, mem_spans_normal right h.2]
    rfl

theorem normal_numeric : {level : Level} → (phrase : Phrase level) → phrase.Numeric field →
    ∀ all ∈ phrase.normal, ∀ atom ∈ all, (spanOf field atom).isSome
  | _, .atom text _, h => by
    intro all hall atom hatom
    rw [List.mem_singleton.mp hall] at hatom
    rw [List.mem_singleton.mp hatom]
    exact h
  | _, .blank _ _, h => h.elim
  | _, .group _ inner _ _, h => normal_numeric inner h
  | _, .part p, h => normal_numeric p h
  | _, .and left right, h => by
    intro all hall atom hatom
    rw [Phrase.normal, both, if_neg left.normal_ne_nil, if_neg right.normal_ne_nil] at hall
    obtain ⟨a, ha, hjoined⟩ := List.mem_flatMap.mp hall
    obtain ⟨b, hb, rfl⟩ := List.mem_map.mp hjoined
    rcases List.mem_append.mp hatom with hatom | hatom
    · exact normal_numeric left h.1 a ha atom hatom
    · exact normal_numeric right h.2 b hb atom hatom
  | _, .conjunction c, h => normal_numeric c h
  | _, .or left right, h => by
    intro all hall
    rcases List.mem_append.mp hall with hall | hall
    · exact normal_numeric left h.1 all hall
    · exact normal_numeric right h.2 all hall

/-- A text that names an upper end, or none where there is none. -/
def Names (field : FieldDef) (upper : Option Bytes) (e : WithTop Int) : Prop :=
  (upper = none ∧ e = ⊤) ∨ ∃ text m, upper = some text ∧ number field text = some m ∧ e = (m : Int)

theorem names_takeUpper (h : Names field upper e) {atom : Atom}
    {span : Span Int} (hspan : spanOf field atom = some span) :
    Names field (takeUpper upper atom) (if span.upper = ⊤ then e else span.upper) := by
  unfold spanOf at hspan
  unfold takeUpper
  cases hcompare : atom.compare <;> rw [hcompare] at hspan <;> try cases hspan
  · obtain ⟨m, hm, rfl⟩ := Option.map_eq_some_iff.mp hspan
    exact .inr ⟨_, m, rfl, hm, if_neg (WithTop.coe_ne_top (a := m))⟩
  · obtain ⟨lower, hlower, hspan⟩ := Option.bind_eq_some_iff.mp hspan
    obtain ⟨upper', hupper, rfl⟩ := Option.map_eq_some_iff.mp hspan
    unfold upperEnd at hupper
    dsimp only
    split at hupper
    · next hopen =>
      cases hupper
      rw [if_pos hopen, if_pos rfl]
      exact h
    · next hclosed =>
      obtain ⟨m, hm, rfl⟩ := Option.map_eq_some_iff.mp hupper
      rw [if_neg hclosed]
      exact .inr ⟨_, m, rfl, hm, if_neg (WithTop.coe_ne_top (a := m))⟩

theorem names_foldl {all : All} (h : ∀ atom ∈ all, (spanOf field atom).isSome) (hnames : Names field upper e) :
    Names field (all.foldl takeUpper upper)
      ((all.filterMap (spanOf field)).foldl (fun e span => if span.upper = ⊤ then e else span.upper) e) := by
  induction all generalizing upper e with
  | nil => exact hnames
  | cons atom rest ih =>
    obtain ⟨hatom, hrest⟩ := List.forall_mem_cons.mp h
    obtain ⟨span, hspan⟩ := Option.isSome_iff_exists.mp hatom
    rw [List.filterMap_cons_some hspan, List.foldl_cons, List.foldl_cons]
    exact ih hrest (names_takeUpper hnames hspan)

/-- The upper limit is the last upper end of the normal form. -/
theorem names_upperOf {expression : Expression} (h : ∀ all ∈ expression, ∀ atom ∈ all, (spanOf field atom).isSome)
    (hnames : Names field upper e) : Names field (expression.foldl (fun upper all => all.foldl takeUpper upper) upper)
      ((spans field expression).flatten.foldl (fun e span => if span.upper = ⊤ then e else span.upper) e) := by
  induction expression generalizing upper e with
  | nil => exact hnames
  | cons all rest ih =>
    obtain ⟨hall, hrest⟩ := List.forall_mem_cons.mp h
    rw [spans, List.map_cons, List.flatten_cons, List.foldl_append, List.foldl_cons]
    exact ih hrest (names_foldl hall hnames)

end

end Agiru.Filter
