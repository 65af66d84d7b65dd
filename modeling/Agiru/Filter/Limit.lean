import Agiru.Filter.Upper
import Mathlib.Data.Int.ConditionallyCompleteOrder

/-! The filters of every group on a field, joined as text, and where the numbers that they accept end. -/
namespace Agiru.Filter
open Bytes Spans

variable {table : TableDef} {field : FieldDef}

namespace Phrase

/-- A filter in parentheses. -/
def enclosed (filter : Phrase .filter) : Phrase .part := .group [] filter [] nothing_around

/-- A conjunction with more filters in parentheses. -/
def joined (first : Phrase .conjunction) (rest : List (Phrase .filter)) : Phrase .conjunction :=
  rest.foldl (fun conjunction filter => .and conjunction filter.enclosed) first

/-- What a conjunction asks of its parts, it asks of all that are joined. -/
theorem joined_iff (asks : {level : Level} → Phrase level → Prop)
    (hand : ∀ left right, asks (.and left right) ↔ asks left ∧ asks right)
    (hgroup : ∀ filter, asks (enclosed filter) ↔ asks filter) (first : Phrase .conjunction)
    (rest : List (Phrase .filter)) :
    asks (joined first rest) ↔ asks first ∧ ∀ filter ∈ rest, asks filter := by
  induction rest generalizing first with
  | nil => simp [joined]
  | cons filter rest ih =>
    have hstep := ih (.and first filter.enclosed)
    rw [hand, hgroup] at hstep
    rw [List.forall_mem_cons, ← and_assoc]
    exact hstep

end Phrase

/-! ### The joined text -/

/-- What a filter adds to those before it. -/
def joinText (before : Bytes) (filter : FieldFilter table) : Bytes :=
  (if before = [] then before else before ++ [Ch.ampersand]) ++ (Ch.openParen :: (filter.text ++ [Ch.closeParen]))

theorem filterOn_eq (state : RecordState table) {no : FieldNo}
    (h : ∀ filter ∈ state.filters, filter.field = no → filter.text ≠ []) :
    filterOn (some state) no =
      (let text := (state.filters.filter (·.field = no)).foldl joinText []
       if text = [] then none else some text) := by
  have hstep : state.filters.foldl
      (fun before filter => if filter.field ≠ no ∨ filter.text = [] then before else joinText before filter) [] =
        (state.filters.filter (·.field = no)).foldl joinText [] := by
    rw [List.foldl_filter]
    apply List.foldl_ext
    intro before filter hfilter
    by_cases hfield : filter.field = no
    · simp [hfield, h filter hfilter hfield]
    · simp [hfield]
  unfold filterOn
  dsimp only
  rw [← hstep]
  rfl

variable {phrase : FieldFilter table → Phrase .filter}

theorem joinText_joined {filters : List (FieldFilter table)}
    (h : ∀ filter ∈ filters, (phrase filter).text = filter.text)
    (first : Phrase .conjunction) (hfirst : first.text ≠ []) :
    filters.foldl joinText first.text = (Phrase.joined first (filters.map phrase)).text := by
  induction filters generalizing first with
  | nil => rfl
  | cons filter rest ih =>
    obtain ⟨hfilter, hrest⟩ := List.forall_mem_cons.mp h
    have hjoin : joinText first.text filter = (Phrase.and first (phrase filter).enclosed).text := by
      rw [joinText, if_neg hfirst, ← hfilter]
      simp [Phrase.text, Phrase.enclosed]
    rw [List.foldl_cons, hjoin, List.map_cons]
    apply ih hrest
    simp [Phrase.text]

/-- The joined text is that of the joined filters. -/
theorem filterOn_joined {state : RecordState table} {no : FieldNo} {first : FieldFilter table}
    {rest : List (FieldFilter table)} (hown : state.filters.filter (·.field = no) = first :: rest)
    (htext : ∀ filter ∈ first :: rest, (phrase filter).text = filter.text ∧ filter.text ≠ []) :
    filterOn (some state) no =
      some (Phrase.joined (.part (phrase first).enclosed) (rest.map phrase)).text := by
  have hwritten : ∀ filter ∈ state.filters, filter.field = no → filter.text ≠ [] := by
    intro filter hfilter hfield
    apply (htext filter _).2
    rw [← hown]
    exact List.mem_filter.mpr ⟨hfilter, by simpa using hfield⟩
  obtain ⟨hfirst, hrest⟩ := List.forall_mem_cons.mp htext
  have hstart : joinText [] first = (Phrase.part (phrase first).enclosed).text := by
    rw [joinText, if_pos rfl, ← hfirst.1]
    simp [Phrase.text, Phrase.enclosed]
  have hnonempty : (Phrase.part (phrase first).enclosed).text ≠ [] := by
    rw [← hstart]
    simp [joinText]
  have hfold := joinText_joined (fun filter hfilter => (hrest filter hfilter).1) _ hnonempty
  rw [filterOn_eq state hwritten, hown, List.foldl_cons, hstart, hfold]
  apply if_neg
  rw [← hfold, ← hstart]
  have hkept : ∀ (filters : List (FieldFilter table)) (before : Bytes), before ≠ [] →
      filters.foldl joinText before ≠ [] := by
    intro filters
    induction filters with
    | nil => exact fun before hbefore => hbefore
    | cons filter rest ih => exact fun before _ => ih _ (by simp [joinText])
  exact hkept rest _ (by simp [joinText])

/-! ### The limit -/

/-- An upper limit of a set of numbers: none where the set has no end, and otherwise the text of its greatest
element. -/
structure UpperLimit (field : FieldDef) (s : Set Int) (upper : Option Bytes) : Prop where
  none_iff : upper = none ↔ ¬ BddAbove s
  greatest : ∀ text, upper = some text → ∃ m, number field text = some m ∧ IsGreatest s m

theorem upperLimit_iff {s : Set Int} {upper : Option Bytes} {e : WithTop Int} (h : Names field upper e) :
    UpperLimit field s upper ↔ EndsAt s e := by
  rcases h with ⟨rfl, rfl⟩ | ⟨text, m, rfl, hm, rfl⟩
  · constructor
    · intro hlimit
      exact ⟨iff_of_true rfl (hlimit.none_iff.mp rfl), fun m hm => absurd hm (WithTop.top_ne_coe)⟩
    · intro hends
      exact ⟨iff_of_true rfl (hends.open_iff.mp rfl), fun text htext => by cases htext⟩
  · constructor
    · intro hlimit
      obtain ⟨k, hk, hgreatest⟩ := hlimit.greatest text rfl
      obtain rfl : m = k := Option.some.inj (hm.symm.trans hk)
      refine ⟨iff_of_false WithTop.coe_ne_top fun hopen => hopen hgreatest.bddAbove, fun k hk => ?_⟩
      rwa [← WithTop.coe_injective hk]
    · intro hends
      have hgreatest := hends.greatest m rfl
      refine ⟨iff_of_false (by simp) fun hopen => hopen hgreatest.bddAbove, fun text' htext => ?_⟩
      cases htext
      exact ⟨m, hm, hgreatest⟩

theorem upperOf_names (filter : Phrase .filter) (h : filter.Numeric field) :
    Names field (upperOf filter.text) (lastEnd (spans field (parseFilter filter.text))) := by
  have hnumeric : ∀ all ∈ parseFilter filter.text, ∀ atom ∈ all, (spanOf field atom).isSome := by
    rw [parseFilter_text filter (filter.groupsWritten h) (Phrase.trim_text_ne_nil h)]
    exact normal_numeric filter h
  exact names_upperOf hnumeric (.inl ⟨rfl, rfl⟩)

/-- The limit of one filter. -/
theorem upperOf_limit_iff (filter : Phrase .filter) (h : filter.Numeric field)
    (hsome : (filter.numbers field).Nonempty) :
    UpperLimit field (filter.numbers field) (upperOf filter.text) ↔
      IsGreatest (ends (spans field (parseFilter filter.text)))
          (lastEnd (spans field (parseFilter filter.text))) := by
  have hadmitted : admitted (spans field (parseFilter filter.text)) = filter.numbers field := by
    rw [parseFilter_text filter (filter.groupsWritten h) (Phrase.trim_text_ne_nil h)]
    ext n
    exact mem_spans_normal filter h
  rw [upperLimit_iff (upperOf_names filter h), ← endsAt_iff (hadmitted ▸ hsome), hadmitted]

/-- The numbers that every filter on a field accepts. -/
def allAccept (state : RecordState table) (no : FieldNo) (field : FieldDef)
    (phrase : FieldFilter table → Phrase .filter) :
    Set Int :=
  {n | ∀ filter ∈ state.filters, filter.field = no → n ∈ (phrase filter).numbers field}

/-- **The upper limit of a flow filter.** The joined filters accept what every one of them does, the texts of
the numbers that all of them accept; and the upper limit ends these exactly if the last upper end of the
normal form is the greatest of the ends of the alternatives that accept any number. -/
theorem upper_limit_iff (state : RecordState table) (no : FieldNo) (field : FieldDef)
    (phrase : FieldFilter table → Phrase .filter)
    (h : ∀ filter ∈ state.filters, filter.field = no →
      (phrase filter).text = filter.text ∧ (phrase filter).Numeric field)
    (hsome : ∃ filter ∈ state.filters, filter.field = no) :
    ∃ text, filterOn (some state) no = some text ∧
      (∀ value, matchesValue (parseFilter text) value field = true ↔
        ∀ filter ∈ state.filters, filter.field = no → matchesValue (parseFilter filter.text) value field = true) ∧
      (∀ value n, number field value = some n →
        (matchesValue (parseFilter text) value field = true ↔ n ∈ allAccept state no field phrase)) ∧
      ((allAccept state no field phrase).Nonempty →
        (UpperLimit field (allAccept state no field phrase) (upperOf text) ↔
          IsGreatest (ends (spans field (parseFilter text))) (lastEnd (spans field (parseFilter text))))) := by
  obtain ⟨first, rest, hown⟩ : ∃ first rest, state.filters.filter (·.field = no) = first :: rest := by
    obtain ⟨filter, hfilter, hfield⟩ := hsome
    apply List.exists_cons_of_ne_nil
    exact List.ne_nil_of_mem (List.mem_filter.mpr ⟨hfilter, by simpa using hfield⟩)
  have hmem : ∀ filter, filter ∈ first :: rest ↔ filter ∈ state.filters ∧ filter.field = no := by
    intro filter
    rw [← hown, List.mem_filter, decide_eq_true_iff]
  have hall : ∀ filter ∈ first :: rest, (phrase filter).text = filter.text ∧ (phrase filter).Numeric field :=
    fun filter hfilter => h filter ((hmem filter).mp hfilter).1 ((hmem filter).mp hfilter).2
  -- what is asked of the joined filters is asked of each
  have hasks : ∀ asks : {level : Level} → Phrase level → Prop,
      (∀ left right, asks (.and left right) ↔ asks left ∧ asks right) →
      (∀ filter, asks (Phrase.enclosed filter) ↔ asks filter) → (∀ part, asks (.part part) ↔ asks part) →
      (asks (Phrase.joined (.part (phrase first).enclosed) (rest.map phrase)) ↔
        ∀ filter ∈ state.filters, filter.field = no → asks (phrase filter)) := by
    intro asks hand hgroup hpart
    have hcons : (asks (phrase first) ∧ ∀ filter ∈ rest, asks (phrase filter)) ↔
        ∀ filter ∈ first :: rest, asks (phrase filter) := by rw [List.forall_mem_cons]
    rw [Phrase.joined_iff asks hand hgroup, hpart, hgroup, List.forall_mem_map, hcons]
    constructor
    · exact fun hasked filter hfilter hfield => hasked filter ((hmem filter).mpr ⟨hfilter, hfield⟩)
    · exact fun hasked filter hfilter => hasked filter ((hmem filter).mp hfilter).1 ((hmem filter).mp hfilter).2
  let filter : Phrase .filter := .conjunction (Phrase.joined (.part (phrase first).enclosed) (rest.map phrase))
  have hnumeric : filter.Numeric field :=
    (hasks (fun p => p.Numeric field) (fun _ _ => Iff.rfl) (fun _ => Iff.rfl) fun _ => Iff.rfl).mpr
      fun filter hfilter hfield => (h filter hfilter hfield).2
  have hnumbers : filter.numbers field = allAccept state no field phrase := by
    ext n
    exact hasks (fun p => n ∈ p.numbers field) (fun _ _ => Iff.rfl) (fun _ => Iff.rfl) fun _ => Iff.rfl
  have hmeans : ∀ (filter : Phrase .filter) (value : Bytes), filter.Numeric field →
      matchesValue (parseFilter filter.text) value field = filter.accepts value field := by
    intro filter value hfilter
    rw [normal_form_means filter (filter.groupsWritten hfilter), Phrase.means,
      decide_eq_false (Phrase.trim_text_ne_nil hfilter), Bool.false_or]
  have haccepts : ∀ value, filter.accepts value field = true ↔
      ∀ filter ∈ state.filters, filter.field = no → (phrase filter).accepts value field = true := by
    intro value
    exact hasks (fun p => p.accepts value field = true) (fun left right => by rw
        [Phrase.accepts, Bool.and_eq_true])
      (fun _ => Iff.rfl) fun _ => Iff.rfl
  refine ⟨filter.text, ?_, ?_, ?_, ?_⟩
  · apply filterOn_joined hown
    intro filter hfilter
    obtain ⟨htext, hfilter⟩ := hall filter hfilter
    refine ⟨htext, fun hnil => Phrase.trim_text_ne_nil hfilter ?_⟩
    rw [htext, hnil]
    rfl
  · intro value
    rw [hmeans filter value hnumeric, haccepts]
    apply forall_congr'
    intro other
    apply forall_congr'
    intro hother
    apply forall_congr'
    intro hfield
    obtain ⟨htext, hfilter⟩ := h other hother hfield
    rw [← htext, hmeans _ value hfilter]
  · intro value n hvalue
    rw [hmeans filter value hnumeric, Phrase.accepts_iff hvalue filter hnumeric, hnumbers]
  · intro hnonempty
    rw [← hnumbers] at hnonempty ⊢
    exact upperOf_limit_iff filter hnumeric hnonempty

/-! ### Three or five, up to nine -/

def balances : TableDef :=
  { name := ascii "Balances"
    caption := ascii "Balances"
    fields := [amountField]
    keys := []
    sorted := List.pairwise_singleton _ _
    keyed := by decide
    numbered := by decide }

def onAmount (group : Int) (text : Bytes) : FieldFilter balances := ⟨1, group, text, rfl⟩

/-- An atom that is one word. -/
def word (text : Bytes) (h : Atomic text) : Phrase .conjunction := .part (.atom text h)

theorem mem_word {text : Bytes} {h : Atomic text} {span : Span Int} {n : Int}
    (hspan : spanOf field (readAtom text) = some span) : n ∈ (word text h).numbers field ↔ span.Admits n := by
  show (∀ span ∈ spanOf field (readAtom text), span.Admits n) ↔ span.Admits n
  rw [hspan]
  simp

theorem spanOf_three : spanOf amountField (readAtom (ascii "3")) = some ⟨(3 : Int), (3 : Int)⟩ := by decide +kernel
theorem spanOf_five : spanOf amountField (readAtom (ascii "5")) = some ⟨(5 : Int), (5 : Int)⟩ := by decide +kernel
theorem spanOf_upToNine : spanOf amountField (readAtom (ascii "..9")) = some ⟨⊥, (9 : Int)⟩ := by decide +kernel

def three : Phrase .conjunction := word (ascii "3") (.of_head (by decide) rfl rfl (by decide) (by decide))
def five : Phrase .conjunction := word (ascii "5") (.of_head (by decide) rfl rfl (by decide) (by decide))
def upToNine : Phrase .conjunction := word (ascii "..9") (.of_head (by decide) rfl rfl (by decide) (by decide))

/-- Up to nine in the first group, and three or five in another. -/
def limited : RecordState balances := {filters := [onAmount 0 (ascii "..9"), onAmount 2 (ascii "3|5")]}

def limitedPhrase (filter : FieldFilter balances) : Phrase .filter :=
  if filter.group = 0 then .conjunction upToNine else .or (.conjunction three) five

theorem upper_limit_limited :
    ∃ text, filterOn (some limited) 1 = some text ∧
      (UpperLimit amountField (allAccept limited 1 amountField limitedPhrase) (upperOf text) ↔
        IsGreatest (ends (spans amountField (parseFilter text)))
            (lastEnd (spans amountField (parseFilter text)))) := by
  have hfilters : ∀ filter ∈ limited.filters, filter.field = 1 →
      (limitedPhrase filter).text = filter.text ∧ (limitedPhrase filter).Numeric amountField := by
    intro filter hfilter _
    rcases List.mem_cons.mp hfilter with rfl | hfilter
    · exact ⟨rfl, Option.isSome_of_mem spanOf_upToNine⟩
    · rw [List.mem_singleton.mp hfilter]
      exact ⟨rfl, Option.isSome_of_mem spanOf_three, Option.isSome_of_mem spanOf_five⟩
  have hthree : (3 : Int) ∈ allAccept limited 1 amountField limitedPhrase := by
    intro filter hfilter _
    rcases List.mem_cons.mp hfilter with rfl | hfilter
    · exact (mem_word spanOf_upToNine).mpr ⟨bot_le, by decide⟩
    · rw [List.mem_singleton.mp hfilter]
      exact .inl ((mem_word spanOf_three).mpr ⟨le_rfl, le_rfl⟩)
  obtain ⟨text, htext, -, -, hlimit⟩ := upper_limit_iff limited 1 amountField limitedPhrase hfilters
    ⟨_, List.mem_cons_self, rfl⟩
  exact ⟨text, htext, hlimit ⟨3, hthree⟩⟩

/-- Five or three: the limit is the one that is written last. -/
def unordered : RecordState balances := {filters := [onAmount 0 (ascii "5|3")]}

theorem upper_limit_last :
    ∃ text, filterOn (some unordered) 1 = some text ∧
      ¬ UpperLimit amountField (allAccept unordered 1 amountField fun _ => .or (.conjunction five) three)
        (upperOf text) := by
  refine ⟨ascii "(5|3)", by decide, ?_⟩
  intro hlimit
  have hupper : upperOf (ascii "(5|3)") = some (ascii "3") := by decide +kernel
  have hnumber : number amountField (ascii "3") = some 3 := by decide +kernel
  have hfive : (5 : Int) ∈ allAccept unordered 1 amountField fun _ => .or (.conjunction five) three :=
    fun _ _ _ => .inl ((mem_word spanOf_five).mpr ⟨le_rfl, le_rfl⟩)
  obtain ⟨m, hm, hgreatest⟩ := hlimit.greatest _ hupper
  rw [hnumber] at hm
  cases hm
  exact absurd (hgreatest.2 hfive) (by decide)

end Agiru.Filter
