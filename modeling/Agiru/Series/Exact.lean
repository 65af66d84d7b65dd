import Agiru.Marks.Clause
import Agiru.Series.Denoted
import Mathlib.Data.Finset.Sort
import Mathlib.Data.Int.Interval

/-! The selection of a table whose rows are numbers.

A table with a sequence field stores nothing. Where the filters on that field admit numbers, `select` reads them
from a series, so many from the low end; else it reads the table by its name. The clause asks all filters again. -/
namespace Agiru.Series
open Bytes Agiru.Filter
open Intervals (Interval Covers Apart Lists numbers)

/-- A table that is computed, and the field whose values its rows are. -/
structure SequenceTable where
  table : TableDef
  sequenceField : FieldDef
  declared : sequenceField ∈ table.fields
  counts : Counts sequenceField
  stored : sequenceField.fieldClass = .normal
  /-- Why there is no provider; empty where there is one. -/
  providerRefusal : Bytes := []

/-- What is known of the table's calculated fields. -/
structure FlowFields where
  /-- Whether the field declares a formula. -/
  calcFormula : FieldDef → Bool
  /-- `FlowFieldColumn`: what the column binds, from a placeholder on. -/
  column : FieldDef → Nat → Except Bytes (List Bytes)

/-- A clause on a stored column, or what is asked of a calculated one. -/
inductive Piece
  | stored (field : FieldDef) (sql : List (List Condition))
  | calculated (field : FieldDef) (expression : Expression)
  deriving DecidableEq

structure Selection where
  /-- The series that is read; none where the table is, by its name. -/
  series : Option (List Interval) := none
  groups : List Piece := []
  crossColumn : List Piece := []
  marked : Option (List Marks.MarkSql) := none
  binds : List Bytes := []
  deriving DecidableEq

variable {before after : Selection}

/-- `kSeriesDomain`. -/
def seriesDomain : Interval := ⟨-1000000000, 1000000000⟩

/-- `kSeriesLimit`. -/
def seriesLimit : Int := 1000000

/-- The system fields with a value to synthesise: a row version, identities and instants. -/
def implicitSystemFields : List (FieldNo × FieldType) :=
  [(0, .bigInteger), (2000000000, .guid), (2000000001, .dateTime), (2000000002, .guid), (2000000003, .dateTime),
    (2000000004, .guid)]

variable (t : SequenceTable) (flow : FlowFields)

/-- `SeriesColumns` raises for a stored field without a value. -/
def seriesColumns : Except Bytes Unit :=
  match t.table.fields.find? fun field => field.fieldClass = .normal && field.no ≠ t.sequenceField.no &&
    (field.no, field.type) ∉ implicitSystemFields with
  | none => .ok ()
  | some field => .error (ascii "sequence provider cannot synthesize field " ++ field.name)

/-- What all filters on the sequence field admit. -/
def admittedBy : List (FieldFilter t.table) → List Interval → Option (List Interval)
  | [], so => some so
  | filter :: filters, so =>
    if filter.field ≠ t.sequenceField.no then admittedBy filters so
    else do
      let one ← integerIntervals (parseFilter filter.text) seriesDomain
      admittedBy filters (both so one)

/-- `Series`. -/
def series (state : Option (RecordState t.table)) : Except Bytes (Option (List Interval)) :=
  match state with
  | none => .ok none
  | some state =>
    match admittedBy t state.filters [seriesDomain] with
    | none => .ok none
    | some admitted =>
      if admitted = [] then .ok none
      else do
        seriesColumns t
        return some (capped seriesLimit admitted)

variable {t} in
/-- `take`. -/
def Selection.take (made : Selection) (piece : Piece) (binds : List Bytes) (group : Int) : Selection :=
  if group = crossColumnGroup then
    {made with crossColumn := made.crossColumn ++ [piece], binds := made.binds ++ binds}
  else {made with groups := made.groups ++ [piece], binds := made.binds ++ binds}

/-- `Narrow`. -/
def narrow : List (FieldFilter t.table) → Selection → Except Bytes Selection
  | [], made => .ok made
  | filter :: filters, made =>
    let field := filter.fieldDef
    let expression := parseFilter filter.text
    match field.fieldClass with
    | .flowFilter => narrow filters made
    | .flowField =>
      if flow.calcFormula field then do
        let column ← flow.column field (made.binds.length + 1)
        let clause := whereClause field expression (made.binds.length + 1 + column.length)
        if clause.sql = [] then narrow filters made
        else narrow filters (made.take (.calculated field expression) (column ++ clause.binds) filter.group)
      else narrow filters made
    | .normal =>
      let clause := whereClause field expression (made.binds.length + 1)
      if clause.sql = [] then narrow filters made
      else narrow filters (made.take (.stored field clause.sql) clause.binds filter.group)

variable {t} in
/-- `NarrowMarks`; the marks are a sorted set. -/
def Selection.narrowMarks (made : Selection) (state : RecordState t.table) : Selection :=
  if state.markedOnly then
    let (sql, binds) := Marks.narrowMarks t.table (state.marks.sort (· ≤ ·)) (made.binds.length + 1)
    {made with marked := some sql, binds := made.binds ++ binds}
  else made

/-- `Select`, without the order. -/
def select (state : Option (RecordState t.table)) : Except Bytes Selection := do
  if t.providerRefusal ≠ [] then throw t.providerRefusal
  let from_ ← series t state
  match state with
  | none => return {series := from_}
  | some state =>
    let made ← narrow t flow state.filters {series := from_}
    return made.narrowMarks state

/-! ### The query -/

/-- A row, as the conditions of a clause see it. -/
structure Row where
  number : Int
  column : FieldDef → Filter.Column
  /-- What a clause says of a calculated column. -/
  calculated : FieldDef → Expression → Option Bool

def Row.columnOf (row : Row) (field : FieldDef) : Filter.Column :=
  if field.no = t.sequenceField.no then numberColumn row.number else row.column field

/-- What a query reads: the rows the table stores, and the columns that are the same in all rows of a series. -/
structure Provider where
  stored : List Row
  column : FieldDef → Filter.Column
  calculated : FieldDef → Expression → Int → Option Bool

/-- The row of a number. -/
def Provider.row (provider : Provider) (n : Int) : Row :=
  ⟨n, provider.column, fun field expression => provider.calculated field expression n⟩

def Piece.holds (binds : List Bytes) (row : Row) : Piece → Option Bool
  | .stored field sql => Filter.holds (row.columnOf t field) binds sql
  | .calculated field expression => row.calculated field expression

/-- Whether the clause is true of a row; a query with a text that cannot be read fails. -/
def Selection.holds (made : Selection) (row : Row) : Option Bool := do
  let groups ← made.groups.mapM (Piece.holds t made.binds row)
  let crossColumn ← made.crossColumn.mapM (Piece.holds t made.binds row)
  let marked ← match made.marked with
    | none => some true
    | some sql => Marks.selects (row.columnOf t) made.binds sql
  return groups.all id && (crossColumn = [] || crossColumn.any id) && marked

def Selection.source (made : Selection) (provider : Provider) : List Row :=
  match made.series with
  | none => provider.stored
  | some is => (numbers is).map provider.row

/-- The rows of the source that the clause is true of. The texts are read before the rows are, so a query fails
as well of no rows. -/
def Selection.rows (made : Selection) (provider : Provider) : Option (List Row) :=
  if (provider.row 0 :: made.source provider).all fun row => (made.holds t row).isSome then
    some ((made.source provider).filter fun row => made.holds t row = some true)
  else none

/-- The rows of a record variable, or nothing, where the read raises. -/
def readRows (provider : Provider) (state : RecordState t.table) : Option (List Row) :=
  match select t flow (some state) with
  | .ok made => made.rows t provider
  | .error _ => none

/-! ### Which numbers a table of numbers shows.

A row is read if it is of the first million numbers that the filters on the sequence field admit, and the whole
selection accepts it (`read_served`): the cap cuts from the high end, and nothing else is left out. -/

/-! ### What a record variable asks -/

section
variable {t : SequenceTable}

/-- Whether a filter is a condition at all. -/
def asks (flow : FlowFields) (filter : FieldFilter t.table) : Bool :=
  parseFilter filter.text ≠ [] &&
    match filter.fieldDef.fieldClass with
    | .flowFilter => false
    | .flowField => flow.calcFormula filter.fieldDef
    | .normal => true

/-- What the database says of a row, of a filter on its field. -/
def filterSays (row : Row) (filter : FieldFilter t.table) : Option Bool :=
  match filter.fieldDef.fieldClass with
  | .flowField => row.calculated filter.fieldDef (parseFilter filter.text)
  | _ => clauseSays (row.columnOf t filter.fieldDef) filter.fieldDef (parseFilter filter.text)

/-- A filter on the sequence field accepts a number as the filter language compares it; one on another field
accepts the row that the database says so of. -/
def Passes (row : Row) (filter : FieldFilter t.table) : Prop :=
  if filter.field = t.sequenceField.no then
    matchesValue (parseFilter filter.text) (intText row.number) t.sequenceField = true
  else filterSays row filter = some true

/-- The whole selection: each filter of the ordinary groups, one of the cross-column group, and the marks. -/
structure Accepts (flow : FlowFields) (state : RecordState t.table) (row : Row) : Prop where
  groups : ∀ filter ∈ state.filters, asks flow filter = true → filter.group ≠ crossColumnGroup → Passes row filter
  crossColumn : (∃ filter ∈ state.filters, asks flow filter = true ∧ filter.group = crossColumnGroup) →
    ∃ filter ∈ state.filters, asks flow filter = true ∧ filter.group = crossColumnGroup ∧ Passes row filter
  marked : state.markedOnly = true → ∃ mark ∈ state.marks, Marks.isMarked (row.columnOf t) t.table mark = some true

/-- All filters on the sequence field accept the number. -/
def Admitted (state : RecordState t.table) (n : Int) : Prop :=
  ∀ filter ∈ state.filters, filter.field = t.sequenceField.no →
    matchesValue (parseFilter filter.text) (intText n) t.sequenceField = true

/-- The filters on the sequence field are of whole numbers, without wildcards. -/
def WholeFilters (state : RecordState t.table) : Prop :=
  ∀ filter ∈ state.filters, filter.field = t.sequenceField.no → WholeNumbers (parseFilter filter.text)

end

/-! ### What the clause says -/

section
variable {α : Type} {f : α → Option Bool} {l : List α} {bs : List Bool}

theorem all_of_mapM (h : l.mapM f = some bs) : bs.all id = true ↔ ∀ x ∈ l, f x = some true := by
  induction l generalizing bs with
  | nil =>
    cases h
    exact iff_of_true rfl fun x hx => absurd hx List.not_mem_nil
  | cons x rest ih =>
    rw [List.mapM_cons] at h
    obtain ⟨b, hb, h⟩ := Option.bind_eq_some_iff.mp h
    obtain ⟨bs, hbs, h⟩ := Option.bind_eq_some_iff.mp h
    cases h
    rw [List.all_cons, Bool.and_eq_true, ih hbs, List.forall_mem_cons, hb]
    exact and_congr_left fun _ => (Option.some.injEq b true ▸ Iff.rfl)

theorem any_of_mapM (h : l.mapM f = some bs) : bs.any id = true ↔ ∃ x ∈ l, f x = some true := by
  induction l generalizing bs with
  | nil =>
    cases h
    exact iff_of_false Bool.false_ne_true fun h => by simp at h
  | cons x rest ih =>
    rw [List.mapM_cons] at h
    obtain ⟨b, hb, h⟩ := Option.bind_eq_some_iff.mp h
    obtain ⟨bs, hbs, h⟩ := Option.bind_eq_some_iff.mp h
    cases h
    rw [List.any_cons, Bool.or_eq_true, ih hbs, List.exists_mem_cons_iff, hb]
    exact or_congr_left (Option.some.injEq b true ▸ Iff.rfl)

theorem length_of_mapM (h : l.mapM f = some bs) : bs.length = l.length := by
  induction l generalizing bs with
  | nil =>
    cases h
    rfl
  | cons x rest ih =>
    rw [List.mapM_cons] at h
    obtain ⟨b, hb, h⟩ := Option.bind_eq_some_iff.mp h
    obtain ⟨bs, hbs, h⟩ := Option.bind_eq_some_iff.mp h
    cases h
    rw [List.length_cons, List.length_cons, ih hbs]

end

section
variable {t : SequenceTable} {flow : FlowFields} {provider : Provider} {state : RecordState t.table}

/-- The filters that are conditions, of the ordinary groups or of the cross-column one. -/
def asked (flow : FlowFields) (crossColumn : Bool) (filters : List (FieldFilter t.table)) :
    List (FieldFilter t.table) :=
  filters.filter fun filter => asks flow filter && (decide (filter.group = crossColumnGroup) == crossColumn)

/-- What narrowing by filters adds to a selection. -/
structure Narrowed (flow : FlowFields) (filters : List (FieldFilter t.table)) (before after : Selection) :
    Prop where
  series : after.series = before.series
  marked : after.marked = before.marked
  binds : before.binds <+: after.binds
  groups : ∀ row behind, after.groups.map (Piece.holds t (after.binds ++ behind) row) =
    before.groups.map (Piece.holds t (after.binds ++ behind) row) ++
      (asked flow false filters).map (filterSays row)
  crossColumn : ∀ row behind, after.crossColumn.map (Piece.holds t (after.binds ++ behind) row) =
    before.crossColumn.map (Piece.holds t (after.binds ++ behind) row) ++
      (asked flow true filters).map (filterSays row)

theorem asked_cons_of_not {filter : FieldFilter t.table} (h : asks flow filter = false) (crossColumn : Bool)
    (filters : List (FieldFilter t.table)) :
    asked flow crossColumn (filter :: filters) = asked flow crossColumn filters := by
  rw [asked, List.filter_cons_of_neg (by simp [h]), asked]

theorem Narrowed.skip {filter : FieldFilter t.table} {filters : List (FieldFilter t.table)}
    (hasks : asks flow filter = false) (h : Narrowed flow filters before after) :
    Narrowed flow (filter :: filters) before after := by
  refine ⟨h.series, h.marked, h.binds, ?_, ?_⟩
  · rw [asked_cons_of_not hasks]
    exact h.groups
  · rw [asked_cons_of_not hasks]
    exact h.crossColumn

/-- A piece that says what the filter does, behind all that is bound already. -/
theorem Narrowed.take {filter : FieldFilter t.table} {filters : List (FieldFilter t.table)}
    {piece : Piece} {binds : List Bytes} (hasks : asks flow filter = true)
    (hpiece : ∀ row behind, piece.holds t (before.binds ++ (binds ++ behind)) row = filterSays row filter)
    (h : Narrowed flow filters (before.take piece binds filter.group) after) :
    Narrowed flow (filter :: filters) before after := by
  have hbinds : (before.take piece binds filter.group).binds = before.binds ++ binds := by
    unfold Selection.take
    split <;> rfl
  obtain ⟨behind, hafter⟩ := h.binds
  have hholds : ∀ row rest, piece.holds t (after.binds ++ rest) row = filterSays row filter := by
    intro row rest
    rw [← hafter, hbinds, List.append_assoc, List.append_assoc]
    exact hpiece row (behind ++ rest)
  by_cases hgroup : filter.group = crossColumnGroup
  · have htake : before.take piece binds filter.group =
        {before with crossColumn := before.crossColumn ++ [piece], binds := before.binds ++ binds} := if_pos hgroup
    rw [htake] at h
    refine ⟨h.series, h.marked, (List.prefix_append _ _).trans h.binds, fun row rest => ?_, fun row rest => ?_⟩
    · rw [h.groups, asked, asked, List.filter_cons_of_neg (by simp [hgroup])]
    · rw [h.crossColumn, asked, asked, List.filter_cons_of_pos (by simp [hgroup, hasks]), List.map_append,
        List.map_cons, List.map_cons, hholds, List.append_assoc]
      rfl
  · have htake : before.take piece binds filter.group =
        {before with groups := before.groups ++ [piece], binds := before.binds ++ binds} := if_neg hgroup
    rw [htake] at h
    refine ⟨h.series, h.marked, (List.prefix_append _ _).trans h.binds, fun row rest => ?_, fun row rest => ?_⟩
    · rw [h.groups, asked, asked, List.filter_cons_of_pos (by simp [hgroup, hasks]), List.map_append,
        List.map_cons, List.map_cons, hholds, List.append_assoc]
      rfl
    · rw [h.crossColumn, asked, asked, List.filter_cons_of_neg (by simp [hgroup])]

theorem clause_eq_nil {field : FieldDef} {expression : Expression} {next : Nat} :
    (whereClause field expression next).sql = [] ↔ expression = [] := by
  cases expression with
  | nil => exact iff_of_true rfl rfl
  | cons all rest => exact iff_of_false (List.cons_ne_nil _ _) (List.cons_ne_nil _ _)

theorem narrow_spec {filters : List (FieldFilter t.table)}
    (h : narrow t flow filters before = .ok after) : Narrowed flow filters before after := by
  induction filters generalizing before with
  | nil =>
    cases h
    refine ⟨rfl, rfl, List.prefix_rfl, fun row behind => ?_, fun row behind => ?_⟩ <;>
      exact (List.append_nil _).symm
  | cons filter filters ih =>
    rw [narrow] at h
    cases hclass : filter.fieldDef.fieldClass with
    | flowFilter =>
      rw [hclass] at h
      exact (ih h).skip (by simp [asks, hclass])
    | flowField =>
      rw [hclass] at h
      dsimp only at h
      split at h
      · next hformula =>
        obtain ⟨column, hcolumn, h⟩ := Fallible.of_bind h
        simp only [clause_eq_nil] at h
        split at h
        · next hnil => exact (ih h).skip (by simp [asks, hnil])
        · next hsome =>
          apply (ih h).take (by simp [asks, hclass, hsome, hformula])
          intro row behind
          rw [Piece.holds, filterSays, hclass]
      · next hnone => exact (ih h).skip (by simp [asks, hclass, hnone])
    | normal =>
      rw [hclass] at h
      simp only [clause_eq_nil] at h
      split at h
      · next hnil => exact (ih h).skip (by simp [asks, hnil])
      · next hsome =>
        apply (ih h).take (by simp [asks, hclass, hsome])
        intro row behind
        rw [Piece.holds, filterSays, hclass]
        exact whereClause_truth _ _ _ _ _

/-- What the database says of a row, of the whole selection. -/
structure Selects (flow : FlowFields) (state : RecordState t.table) (row : Row) : Prop where
  groups : ∀ filter ∈ asked flow false state.filters, filterSays row filter = some true
  crossColumn : asked flow true state.filters ≠ [] →
    ∃ filter ∈ asked flow true state.filters, filterSays row filter = some true
  marked : state.markedOnly = true → ∃ mark ∈ state.marks, Marks.isMarked (row.columnOf t) t.table mark = some true

theorem mapM_eq_map {α : Type} (f : α → Option Bool) (l : List α) : l.mapM f = (l.map f).mapM id := by
  induction l with
  | nil => rfl
  | cons x rest ih =>
    rw [List.mapM_cons, List.map_cons, List.mapM_cons, ih]
    rfl

theorem mem_asked {crossColumn : Bool} {filters : List (FieldFilter t.table)} {filter : FieldFilter t.table} :
    filter ∈ asked flow crossColumn filters ↔
      filter ∈ filters ∧ asks flow filter = true ∧ (filter.group = crossColumnGroup ↔ crossColumn = true) := by
  rw [asked, List.mem_filter, Bool.and_eq_true, beq_iff_eq]
  cases crossColumn <;> simp

theorem narrowMarks_holds {made : Selection} {row : Row} {b : Bool} {groups crossColumn : List (Option Bool)}
    (hgroups : ∀ behind, made.groups.map (Piece.holds t (made.binds ++ behind) row) = groups)
    (hcross : ∀ behind, made.crossColumn.map (Piece.holds t (made.binds ++ behind) row) = crossColumn)
    (hmarked : made.marked = none) (h : (made.narrowMarks state).holds t row = some b) :
    ∃ gs cs ms, groups.mapM id = some gs ∧ crossColumn.mapM id = some cs ∧
      (ms = true ↔ (state.markedOnly = true →
        ∃ mark ∈ state.marks, Marks.isMarked (row.columnOf t) t.table mark = some true)) ∧
      b = (gs.all id && (cs = [] || cs.any id) && ms) := by
  unfold Selection.narrowMarks at h
  by_cases honly : state.markedOnly = true
  · rw [if_pos honly] at h
    obtain ⟨sql, binds, hnarrow⟩ : ∃ sql binds, Marks.narrowMarks t.table (state.marks.sort (· ≤ ·))
        (made.binds.length + 1) = (sql, binds) := ⟨_, _, rfl⟩
    have hselects := @Marks.narrowMarks_selects (row.columnOf t) t.table
      (state.marks.sort (· ≤ ·)) made.binds []
    rw [hnarrow] at h hselects
    dsimp only at h hselects
    rw [List.append_nil] at hselects
    unfold Selection.holds at h
    dsimp only at h
    rw [mapM_eq_map _ made.groups, mapM_eq_map _ made.crossColumn, hgroups, hcross, hselects] at h
    obtain ⟨gs, hgs, h⟩ := Option.bind_eq_some_iff.mp h
    obtain ⟨cs, hcs, h⟩ := Option.bind_eq_some_iff.mp h
    obtain ⟨ms, hms, h⟩ := Option.bind_eq_some_iff.mp h
    obtain ⟨listed, hlisted, rfl⟩ := Option.map_eq_some_iff.mp hms
    cases h
    refine ⟨gs, cs, listed.any id, hgs, hcs, ?_, rfl⟩
    rw [any_of_mapM hlisted, forall_prop_of_true honly]
    simp only [Finset.mem_sort]
  · rw [if_neg honly] at h
    unfold Selection.holds at h
    have hgroups := hgroups []
    have hcross := hcross []
    rw [List.append_nil] at hgroups hcross
    rw [mapM_eq_map _ made.groups, mapM_eq_map _ made.crossColumn, hgroups, hcross, hmarked] at h
    obtain ⟨gs, hgs, h⟩ := Option.bind_eq_some_iff.mp h
    obtain ⟨cs, hcs, h⟩ := Option.bind_eq_some_iff.mp h
    cases h
    exact ⟨gs, cs, true, hgs, hcs, iff_of_true rfl fun h => absurd h honly, rfl⟩

/-- The clause is true of the rows that the filters and the marks are, and says nothing where a filter does not. -/
theorem select_holds {made : Selection} (h : select t flow (some state) = .ok made) :
    series t (some state) = .ok made.series ∧ ∀ row b, made.holds t row = some b →
      (b = true ↔ Selects flow state row) ∧
        ∀ filter ∈ state.filters, asks flow filter = true → (filterSays row filter).isSome := by
  unfold select at h
  by_cases hrefused : t.providerRefusal ≠ []
  · rw [if_pos hrefused] at h
    cases h
  · rw [if_neg hrefused] at h
    obtain ⟨from_, hfrom, h⟩ := Fallible.of_bind h
    obtain ⟨narrowed, hnarrow, h⟩ := Fallible.of_bind h
    cases h
    obtain ⟨hseries, hmarked, -, hgroups, hcross⟩ := narrow_spec hnarrow
    refine ⟨?_, fun row b hb => ?_⟩
    · rw [hfrom]
      unfold Selection.narrowMarks
      split <;> exact congrArg Except.ok hseries.symm
    · obtain ⟨gs, cs, ms, hgs, hcs, hms, rfl⟩ := narrowMarks_holds (hgroups row) (hcross row) hmarked hb
      rw [← mapM_eq_map] at hgs hcs
      refine ⟨?_, fun filter hfilter hasks => ?_⟩
      · rw [Bool.and_eq_true, Bool.and_eq_true, Bool.or_eq_true, decide_eq_true_eq, all_of_mapM hgs,
          any_of_mapM hcs, hms, ← List.length_eq_zero_iff, length_of_mapM hcs, List.length_eq_zero_iff]
        constructor
        · intro h
          exact ⟨h.1.1, fun hsome => h.1.2.resolve_left hsome, h.2⟩
        · intro h
          exact ⟨⟨h.groups, or_iff_not_imp_left.mpr h.crossColumn⟩, h.marked⟩
      · by_cases hgroup : filter.group = crossColumnGroup
        · exact isSome_of_mapM (by rw [hcs]; rfl) filter (mem_asked.mpr ⟨hfilter, hasks, by simp [hgroup]⟩)
        · exact isSome_of_mapM (by rw [hgs]; rfl) filter (mem_asked.mpr ⟨hfilter, hasks, by simp [hgroup]⟩)

/-! ### The numbers that the filters on the field admit -/

theorem fieldDef_eq {filter : FieldFilter t.table} (h : filter.field = t.sequenceField.no) :
    filter.fieldDef = t.sequenceField := by
  have hfound := TableDef.field_of_mem t.declared
  rw [← h] at hfound
  exact Option.get_of_eq_some filter.declared hfound

/-- The database has read every filter on the sequence field. -/
def ReadFilters (state : RecordState t.table) : Prop :=
  ∀ filter ∈ state.filters, filter.field = t.sequenceField.no → ReadableAll (parseFilter filter.text)

theorem asks_sequence {filter : FieldFilter t.table} (h : filter.field = t.sequenceField.no) :
    asks flow filter = decide (parseFilter filter.text ≠ []) := by
  rw [asks, fieldDef_eq h, t.stored, Bool.and_true]

theorem filterSays_sequence {filter : FieldFilter t.table} (h : filter.field = t.sequenceField.no) (row : Row) :
    filterSays row filter = clauseSays (numberColumn row.number) t.sequenceField (parseFilter filter.text) := by
  rw [filterSays, fieldDef_eq h, t.stored]
  dsimp only
  rw [Row.columnOf, if_pos rfl]

theorem readFilters_of_some (hwhole : WholeFilters state) {row : Row}
    (h : ∀ filter ∈ state.filters, asks flow filter = true → (filterSays row filter).isSome) :
    ReadFilters state := by
  intro filter hfilter hfield
  by_cases hnil : parseFilter filter.text = []
  · rw [hnil]
    exact fun all hall => absurd hall List.not_mem_nil
  · have hsays := h filter hfilter (by rw [asks_sequence hfield, decide_eq_true hnil])
    rw [filterSays_sequence hfield] at hsays
    exact readable_of_some t.counts (hwhole filter hfilter hfield) hsays

theorem domain_bounds {n : Int} (h : n ∈ seriesDomain) : -2 ^ 63 ≤ n ∧ n ≤ 2 ^ 63 - 1 := by
  have hn := Intervals.mem_interval.mp h
  unfold seriesDomain at hn
  dsimp only at hn
  omega

theorem admittedBy_spec (filters : List (FieldFilter t.table))
    (hwhole : ∀ filter ∈ filters, filter.field = t.sequenceField.no → WholeNumbers (parseFilter filter.text))
    (hreads : ∀ filter ∈ filters, filter.field = t.sequenceField.no → ReadableAll (parseFilter filter.text))
    {so : List Interval} {accepts : Int → Prop} (hapart : Apart so)
    (hso : ∀ n, Covers so n ↔ n ∈ seriesDomain ∧ accepts n) :
    ∃ is, admittedBy t filters so = some is ∧ Apart is ∧ ∀ n, Covers is n ↔ n ∈ seriesDomain ∧ accepts n ∧
      ∀ filter ∈ filters, filter.field = t.sequenceField.no →
        matchesValue (parseFilter filter.text) (intText n) t.sequenceField = true := by
  induction filters generalizing so accepts with
  | nil => exact ⟨so, rfl, hapart, fun n => (hso n).trans (by simp)⟩
  | cons filter filters ih =>
    obtain ⟨hwholeOne, hwhole⟩ := List.forall_mem_cons.mp hwhole
    obtain ⟨hreadsOne, hreads⟩ := List.forall_mem_cons.mp hreads
    rw [admittedBy]
    by_cases hfield : filter.field ≠ t.sequenceField.no
    · rw [if_pos hfield]
      obtain ⟨is, his, hapart, hcovers⟩ := ih hwhole hreads hapart hso
      refine ⟨is, his, hapart, fun n => (hcovers n).trans ?_⟩
      rw [List.forall_mem_cons]
      simp only [hfield, false_implies, true_and]
    · rw [if_neg hfield]
      have hfield := not_not.mp hfield
      obtain ⟨one, hone, hadmits⟩ := @integerIntervals_spec _ t.counts seriesDomain
        (by decide) (by decide) (by decide) _ (hwholeOne hfield) (hreadsOne hfield)
      have hnext : ∀ n, Covers (both so one) n ↔ n ∈ seriesDomain ∧ (accepts n ∧
          matchesValue (parseFilter filter.text) (intText n) t.sequenceField = true) := by
        intro n
        rw [covers_both, hso, and_assoc]
        refine and_congr_right fun hn => and_congr_right fun _ => hadmits.2 n hn
      obtain ⟨is, his, hapart, hcovers⟩ := ih hwhole hreads (apart_both hapart hadmits.1) hnext
      refine ⟨is, ?_, hapart, fun n => (hcovers n).trans ?_⟩
      · rw [hone]
        exact his
      · rw [List.forall_mem_cons, forall_prop_of_true hfield, and_assoc]

/-- The series, where there is one, has the first of the numbers that the filters on the field admit. -/
theorem series_spec (hwhole : WholeFilters state) (hreads : ReadFilters state) {found : Option (List Interval)}
    (h : series t (some state) = .ok found) :
    (found = none ∧ ∀ n ∈ seriesDomain, ¬ Admitted state n) ∨
      ∃ is, found = some (capped seriesLimit is) ∧ Apart is ∧
        ∀ n, Covers is n ↔ n ∈ seriesDomain ∧ Admitted state n := by
  have hdomain : ∀ n, Covers [seriesDomain] n ↔ n ∈ seriesDomain ∧ True :=
    fun n => covers_singleton.trans (iff_of_eq (and_true _)).symm
  obtain ⟨is, his, hapart, hcovers⟩ :=
    admittedBy_spec state.filters hwhole hreads (Intervals.apart_singleton (by decide)) hdomain
  have hadmitted : ∀ n, Covers is n ↔ n ∈ seriesDomain ∧ Admitted state n :=
    fun n => (hcovers n).trans (and_congr_right fun _ => iff_of_eq (true_and _))
  unfold series at h
  dsimp only at h
  rw [his] at h
  dsimp only at h
  split at h
  · next hnil =>
    cases h
    refine .inl ⟨rfl, fun n hn hadmits => ?_⟩
    have := (hadmitted n).mpr ⟨hn, hadmits⟩
    rw [hnil] at this
    exact not_covers_nil this
  · obtain ⟨_, -, h⟩ := Fallible.of_bind h
    cases h
    exact .inr ⟨is, rfl, hapart, hadmitted⟩

/-! ### The rows that are read -/

/-- Where the cross-column group asks of the sequence field, it asks nothing else. -/
def CrossAlone (flow : FlowFields) (state : RecordState t.table) : Prop :=
  ∀ filter ∈ state.filters, asks flow filter = true → filter.group = crossColumnGroup →
    filter.field = t.sequenceField.no → ∀ other ∈ state.filters, asks flow other = true →
      other.group = crossColumnGroup → other = filter

theorem selects_iff_accepts (hwhole : WholeFilters state) (hreads : ReadFilters state) {row : Row}
    (hrow : row.number ∈ seriesDomain) : Selects flow state row ↔ Accepts flow state row := by
  have hpasses : ∀ filter ∈ state.filters, Passes row filter ↔ filterSays row filter = some true := by
    intro filter hfilter
    unfold Passes
    by_cases hfield : filter.field = t.sequenceField.no
    · have hbounds := domain_bounds hrow
      rw [if_pos hfield, filterSays_sequence hfield, clauseSays_number t.counts (hwhole filter hfilter hfield)
        (hreads filter hfilter hfield) hbounds.1 hbounds.2, Option.some.injEq]
    · rw [if_neg hfield]
  constructor
  · intro h
    refine ⟨fun filter hfilter hasks hgroup => ?_, fun hsome => ?_, h.marked⟩
    · exact (hpasses filter hfilter).mpr (h.groups filter (mem_asked.mpr ⟨hfilter, hasks, by simp [hgroup]⟩))
    · obtain ⟨one, hone, hasks, hgroup⟩ := hsome
      obtain ⟨filter, hfilter, hsays⟩ :=
        h.crossColumn (List.ne_nil_of_mem (mem_asked.mpr ⟨hone, hasks, by simp [hgroup]⟩))
      obtain ⟨hmem, hasks, hgroup⟩ := mem_asked.mp hfilter
      exact ⟨filter, hmem, hasks, hgroup.mpr rfl, (hpasses filter hmem).mpr hsays⟩
  · intro h
    refine ⟨fun filter hfilter => ?_, fun hsome => ?_, h.marked⟩
    · obtain ⟨hmem, hasks, hgroup⟩ := mem_asked.mp hfilter
      exact (hpasses filter hmem).mp (h.groups filter hmem hasks (mt hgroup.mp Bool.false_ne_true))
    · obtain ⟨one, hone⟩ := List.exists_mem_of_ne_nil _ hsome
      obtain ⟨hmem, hasks, hgroup⟩ := mem_asked.mp hone
      obtain ⟨filter, hfilter, hasks, hgroup, hpass⟩ := h.crossColumn ⟨one, hmem, hasks, hgroup.mpr rfl⟩
      exact ⟨filter, mem_asked.mpr ⟨hfilter, hasks, by simp [hgroup]⟩, (hpasses filter hfilter).mp hpass⟩

/-- What the whole selection accepts, the filters on the field admit. -/
theorem admitted_of_accepts (halone : CrossAlone flow state) {row : Row} (h : Accepts flow state row) :
    Admitted state row.number := by
  intro filter hfilter hfield
  by_cases hnil : parseFilter filter.text = []
  · simp [matchesValue, hnil]
  · have hasks : asks flow filter = true := by rw [asks_sequence hfield, decide_eq_true hnil]
    have hpass : Passes row filter := by
      by_cases hgroup : filter.group = crossColumnGroup
      · obtain ⟨other, hother, hothers, hcross, hpass⟩ := h.crossColumn ⟨filter, hfilter, hasks, hgroup⟩
        rwa [halone filter hfilter hasks hgroup hfield other hother hothers hcross] at hpass
      · exact h.groups filter hfilter hasks hgroup
    unfold Passes at hpass
    rwa [if_pos hfield] at hpass

theorem admitted_of_row (halone : CrossAlone flow state) {n : Int} (h : Accepts flow state (provider.row n)) :
    Admitted state n := by
  have hadmitted := admitted_of_accepts halone h
  exact hadmitted

/-- A number that the whole selection accepts, of the first million that the filters on the field admit. -/
structure Served (flow : FlowFields) (provider : Provider) (state : RecordState t.table) (n : Int) : Prop where
  domain : n ∈ seriesDomain
  accepted : Accepts flow state (provider.row n)
  early : ({m | m ∈ seriesDomain ∧ Admitted state m ∧ m < n} : Set Int).ncard < 1000000

theorem domain_finite (p : Int → Prop) : {m | m ∈ seriesDomain ∧ p m}.Finite :=
  (Set.finite_Icc seriesDomain.low seriesDomain.high).subset fun _ h => h.1

/-- Of no more than a million numbers none is cut off. -/
theorem served_eq (halone : CrossAlone flow state)
    (hfew : ({m | m ∈ seriesDomain ∧ Admitted state m} : Set Int).ncard ≤ 1000000) :
    {n | Served flow provider state n} = {n | n ∈ seriesDomain ∧ Accepts flow state (provider.row n)} := by
  ext n
  constructor
  · intro h
    exact ⟨h.domain, h.accepted⟩
  · intro h
    obtain ⟨hdomain, haccepts⟩ := h
    have hfewer : ({m | m ∈ seriesDomain ∧ Admitted state m ∧ m < n} : Set Int) ⊂
        {m | m ∈ seriesDomain ∧ Admitted state m} := by
      refine ⟨fun m hm => ⟨hm.1, hm.2.1⟩, fun hsub => ?_⟩
      have hself : n ∈ {m | m ∈ seriesDomain ∧ Admitted state m ∧ m < n} :=
        hsub ⟨hdomain, admitted_of_row halone haccepts⟩
      exact lt_irrefl n hself.2.2
    exact ⟨hdomain, haccepts, (Set.ncard_lt_ncard hfewer (domain_finite _)).trans_le hfew⟩

theorem readRows_some {rows : List Row} (h : readRows t flow provider state = some rows) :
    ∃ made, select t flow (some state) = .ok made ∧ (∃ b, made.holds t (provider.row 0) = some b) ∧
      (∀ row ∈ made.source provider, ∃ b, made.holds t row = some b) ∧
        rows = (made.source provider).filter fun row => made.holds t row = some true := by
  unfold readRows at h
  cases hselect : select t flow (some state) with
  | error refusal =>
    rw [hselect] at h
    cases h
  | ok made =>
    rw [hselect] at h
    obtain ⟨hall, hrows⟩ := Option.ite_none_right_eq_some.mp h
    rw [List.all_eq_true] at hall
    obtain ⟨hprobe, hsource⟩ := List.forall_mem_cons.mp hall
    exact ⟨made, rfl, Option.isSome_iff_exists.mp hprobe,
      fun row hrow => Option.isSome_iff_exists.mp (hsource row hrow), (Option.some.inj hrows).symm⟩

/-- The rows in the domain are the numbers that are served, each once; the table itself stored the others. -/
theorem rows_served (hwhole : WholeFilters state) (halone : CrossAlone flow state) {rows : List Row}
    (h : readRows t flow provider state = some rows) :
    Lists ((rows.map (·.number)).filter (· ∈ seriesDomain)) {n | Served flow provider state n} ∧
      ∀ row ∈ rows, row.number ∉ seriesDomain → row ∈ provider.stored := by
  obtain ⟨made, hmade, ⟨probe, hprobe⟩, hsource, rfl⟩ := readRows_some h
  obtain ⟨hseries, hholds⟩ := select_holds hmade
  have hreads := readFilters_of_some hwhole (hholds _ _ hprobe).2
  have haccepts : ∀ row ∈ made.source provider, row.number ∈ seriesDomain →
      (made.holds t row = some true ↔ Accepts flow state row) := by
    intro row hrow hdomain
    obtain ⟨b, hb⟩ := hsource row hrow
    rw [hb, Option.some.injEq, (hholds row b hb).1, selects_iff_accepts hwhole hreads hdomain]
  rcases series_spec hwhole hreads hseries with ⟨hnone, hempty⟩ | ⟨is, hsome, hapart, hcovers⟩
  · have hstored : made.source provider = provider.stored := by rw [Selection.source, hnone]
    rw [hstored] at haccepts ⊢
    refine ⟨⟨?_, fun n => ?_⟩, fun row hrow _ => (List.mem_filter.mp hrow).1⟩
    · have hnil : ((provider.stored.filter fun row => made.holds t row = some true).map (·.number)).filter
          (· ∈ seriesDomain) = [] := by
        rw [List.filter_eq_nil_iff]
        intro n hn hdomain
        obtain ⟨row, hrow, rfl⟩ := List.mem_map.mp hn
        obtain ⟨hmem, hholds⟩ := List.mem_filter.mp hrow
        have hdomain := of_decide_eq_true hdomain
        exact hempty _ hdomain
          (admitted_of_accepts halone ((haccepts row hmem hdomain).mp (of_decide_eq_true hholds)))
      rw [hnil]
      exact List.nodup_nil
    · apply iff_of_false
      · intro hn
        obtain ⟨hmapped, hdomain⟩ := List.mem_filter.mp hn
        obtain ⟨row, hrow, rfl⟩ := List.mem_map.mp hmapped
        obtain ⟨hmem, hholds⟩ := List.mem_filter.mp hrow
        have hdomain := of_decide_eq_true hdomain
        exact hempty _ hdomain
          (admitted_of_accepts halone ((haccepts row hmem hdomain).mp (of_decide_eq_true hholds)))
      · intro hn
        have hn : Served flow provider state n := hn
        exact hempty n hn.domain (admitted_of_row halone hn.accepted)
  · have hlimit : seriesLimit.toNat = 1000000 := rfl
    have hlist : made.source provider = ((numbers is).take 1000000).map provider.row := by
      rw [Selection.source, hsome]
      dsimp only
      rw [numbers_capped hapart.full, hlimit]
    have hrising := hapart.numbers_rising
    have hfirst : ∀ n, n ∈ (numbers is).take 1000000 ↔ (n ∈ seriesDomain ∧ Admitted state n) ∧
        ({m | m ∈ seriesDomain ∧ Admitted state m ∧ m < n} : Set Int).ncard < 1000000 := by
      intro n
      have hsame : {m | m ∈ numbers is ∧ m < n} = {m | m ∈ seriesDomain ∧ Admitted state m ∧ m < n} := by
        ext m
        exact (and_congr_left fun _ => Intervals.mem_numbers.trans (hcovers m)).trans and_assoc
      rw [Intervals.mem_take_iff hrising, hsame, Intervals.mem_numbers, hcovers]
    rw [hlist] at haccepts ⊢
    have hmap : ((((numbers is).take 1000000).map provider.row).filter fun row =>
        made.holds t row = some true).map (·.number) =
          ((numbers is).take 1000000).filter fun n => made.holds t (provider.row n) = some true := by
      rw [List.filter_map, List.map_map]
      exact List.map_id _
    have hmem : ∀ n, n ∈ ((numbers is).take 1000000).filter (fun n => made.holds t (provider.row n) = some true) ↔
        Served flow provider state n := by
      intro n
      rw [List.mem_filter, decide_eq_true_eq]
      constructor
      · intro h
        have hn := (hfirst n).mp h.1
        exact ⟨hn.1.1, (haccepts _ (List.mem_map_of_mem h.1) hn.1.1).mp h.2, hn.2⟩
      · intro h
        have hn := (hfirst n).mpr ⟨⟨h.domain, admitted_of_row halone h.accepted⟩, h.early⟩
        exact ⟨hn, (haccepts _ (List.mem_map_of_mem hn) h.domain).mpr h.accepted⟩
    have hin : ∀ n ∈ ((numbers is).take 1000000).filter (fun n => made.holds t (provider.row n) = some true),
        n ∈ seriesDomain := fun n hn => ((hmem n).mp hn).domain
    rw [hmap, List.filter_eq_self.mpr fun n hn => decide_eq_true (hin n hn)]
    refine ⟨⟨((hrising.imp ne_of_lt).sublist (List.take_sublist _ _)).filter _, hmem⟩, fun row hrow hout => ?_⟩
    have hnumber := List.mem_map_of_mem (f := (·.number)) hrow
    rw [hmap] at hnumber
    exact absurd (hin _ hnumber) hout

/-- **No number is left out but behind the first million.** A read raises, or its rows in the domain are the
numbers that are served, each once; where the table stores none outside, their count, the least and the greatest
are those of that set; and where the filters on the field admit at most a million, it is all that the selection
accepts. -/
theorem read_served (hwhole : WholeFilters state) (halone : CrossAlone flow state) :
    readRows t flow provider state = none ∨ ∃ rows, readRows t flow provider state = some rows ∧
      Lists ((rows.map (·.number)).filter (· ∈ seriesDomain)) {n | Served flow provider state n} ∧
      (∀ row ∈ rows, row.number ∉ seriesDomain → row ∈ provider.stored) ∧
      ((∀ row ∈ provider.stored, row.number ∈ seriesDomain) →
        rows.length = {n | Served flow provider state n}.ncard ∧
        (∀ n, (rows.map (·.number)).min? = some n ↔ IsLeast {n | Served flow provider state n} n) ∧
        ∀ n, (rows.map (·.number)).max? = some n ↔ IsGreatest {n | Served flow provider state n} n) ∧
      (({m | m ∈ seriesDomain ∧ Admitted state m} : Set Int).ncard ≤ 1000000 →
        {n | Served flow provider state n} = {n | n ∈ seriesDomain ∧ Accepts flow state (provider.row n)}) := by
  cases hread : readRows t flow provider state with
  | none => exact .inl rfl
  | some rows =>
    obtain ⟨hlists, hothers⟩ := rows_served hwhole halone hread
    refine .inr ⟨rows, rfl, hlists, hothers, fun hstored => ?_, served_eq halone⟩
    have hdomain : ∀ n ∈ rows.map (·.number), decide (n ∈ seriesDomain) = true := by
      intro n hn
      obtain ⟨row, hrow, rfl⟩ := List.mem_map.mp hn
      by_contra hout
      exact hout (decide_eq_true (hstored row (hothers row hrow fun hin => hout (decide_eq_true hin))))
    rw [List.filter_eq_self.mpr hdomain] at hlists
    refine ⟨?_, fun n => hlists.min_iff, fun n => hlists.max_iff⟩
    rw [← hlists.length_eq, List.length_map]

end

/-! ### The table of whole numbers -/

def numberField : FieldDef := {no := 1, name := ascii "Number", caption := ascii "Number", type := .integer}

def systemIdField : FieldDef :=
  {no := 2000000000, name := ascii "SystemId", caption := ascii "SystemId", type := .guid}

/-- The table `Integer`, with one of its system fields. -/
def integerTable : SequenceTable where
  table :=
    { name := ascii "Integer"
      caption := ascii "Integer"
      fields := [numberField, systemIdField]
      keys := [{fields := [1]}]
      sorted := by decide
      keyed := by decide
      numbered := by decide }
  sequenceField := numberField
  declared := by decide
  counts := .inl rfl
  stored := rfl

def noFlowFields : FlowFields := ⟨fun _ => false, fun _ _ => .ok []⟩

def zeroGuid : Bytes := ascii "00000000-0000-0000-0000-000000000000"

/-- A provider that stores nothing; identities compare as their texts do. -/
def computed : Provider :=
  ⟨[], fun _ => {compare := fun bound => some (Ord.compare zeroGuid bound), text := zeroGuid}, fun _ _ _ => none⟩

def numberFilter (group : Int) (text : String) : FieldFilter integerTable.table :=
  ⟨1, group, ascii text, by decide⟩

def systemIdFilter (group : Int) : FieldFilter integerTable.table := ⟨2000000000, group, zeroGuid, by decide⟩

def firstFive : RecordState integerTable.table := {filters := [numberFilter 0 "1..5"]}

def overMillion : RecordState integerTable.table := {filters := [numberFilter 0 "0..1000000"]}

def acrossColumns : RecordState integerTable.table := {filters := [numberFilter (-1) "1..5", systemIdFilter (-1)]}

/-- Of five numbers all are shown. -/
theorem read_served_five : Lists [1, 2, 3, 4, 5] {n | Served noFlowFields computed firstFive n} := by
  have hwhole : WholeFilters firstFive := by
    intro filter hfilter _
    rw [List.mem_singleton.mp hfilter]
    decide +kernel
  have halone : CrossAlone noFlowFields firstFive := by
    intro filter hfilter _ hgroup
    rw [List.mem_singleton.mp hfilter] at hgroup
    cases hgroup
  have hfive : (readRows integerTable noFlowFields computed firstFive).map
      (fun rows => (rows.map (·.number)).filter (· ∈ seriesDomain)) = some [1, 2, 3, 4, 5] := by
    decide +kernel
  rcases @read_served _ _ computed _ hwhole halone with hnone | ⟨rows, hrows, hlists, -⟩
  · rw [hnone] at hfive
    cases hfive
  · rw [hrows] at hfive
    have hnumbers := Option.some.inj hfive
    dsimp only at hnumbers
    rwa [hnumbers] at hlists

/-- The selection of the numbers from 0 to a million. -/
def millionSelection : Selection :=
  {series := some [⟨0, 999999⟩], groups := [.stored numberField [[.between 1 2]]],
    binds := [ascii "0", ascii "1000000"]}

theorem select_overMillion : select integerTable noFlowFields (some overMillion) = .ok millionSelection := by
  decide +kernel

theorem millionSelection_reads (n : Int) : (millionSelection.holds integerTable (computed.row n)).isSome := by
  have hlow : readInt4 (ascii "0") = some 0 := by decide +kernel
  have hhigh : readInt4 (ascii "1000000") = some 1000000 := by decide +kernel
  have hcolumn : (computed.row n).columnOf integerTable numberField = numberColumn n := if_pos rfl
  simp [Selection.holds, millionSelection, Piece.holds, hcolumn, Filter.holds, allHold, Condition.holds,
    numberColumn, hlow, hhigh]

/-- **Numbers that the whole selection accepts and no read shows.** The first million of `0..1000000` ends below
its last number; and numbers that a filter of the cross-column group on another field accepts are left out where
the group's filter on the numbers does not accept them. -/
theorem read_loses :
    (∃ rows, readRows integerTable noFlowFields computed overMillion = some rows ∧
      1000000 ∈ seriesDomain ∧ Accepts noFlowFields overMillion (computed.row 1000000) ∧
      1000000 ∉ rows.map (·.number)) ∧
    ∃ rows, readRows integerTable noFlowFields computed acrossColumns = some rows ∧
      7 ∈ seriesDomain ∧ Accepts noFlowFields acrossColumns (computed.row 7) ∧ 7 ∉ rows.map (·.number) := by
  constructor
  · have hread : ∃ rows, readRows integerTable noFlowFields computed overMillion = some rows := by
      unfold readRows Selection.rows
      rw [select_overMillion]
      dsimp only
      refine ⟨_, if_pos (List.all_eq_true.mpr fun row hrow => ?_)⟩
      rcases List.mem_cons.mp hrow with rfl | hrow
      · exact millionSelection_reads 0
      · obtain ⟨n, -, rfl⟩ := List.mem_map.mp hrow
        exact millionSelection_reads n
    obtain ⟨rows, hrows⟩ := hread
    obtain ⟨made, hmade, -, -, hfiltered⟩ := readRows_some hrows
    cases hmade.symm.trans select_overMillion
    refine ⟨rows, hrows, by decide, ?_, fun hmem => ?_⟩
    · refine ⟨fun filter hfilter _ _ => ?_, fun hcross => ?_, fun hmarked => by cases hmarked⟩
      · rw [List.mem_singleton.mp hfilter]
        unfold Passes
        decide +kernel
      · obtain ⟨filter, hfilter, -, hgroup⟩ := hcross
        rw [List.mem_singleton.mp hfilter] at hgroup
        cases hgroup
    · rw [hfiltered] at hmem
      obtain ⟨row, hrow, hnumber⟩ := List.mem_map.mp hmem
      obtain ⟨n, hn, rfl⟩ := List.mem_map.mp (List.mem_filter.mp hrow).1
      have hcovers := covers_singleton.mp (Intervals.mem_numbers.mp hn)
      have hn : n = 1000000 := hnumber
      rw [hn] at hcovers
      revert hcovers
      decide
  · have hread : (readRows integerTable noFlowFields computed acrossColumns).map (·.map (·.number)) =
        some [1, 2, 3, 4, 5] := by
      decide +kernel
    obtain ⟨rows, hrows, hnumbers⟩ := Option.map_eq_some_iff.mp hread
    refine ⟨rows, hrows, by decide, ?_, by rw [hnumbers]; decide⟩
    refine ⟨fun filter hfilter _ hgroup => ?_, fun _ => ?_, fun hmarked => by cases hmarked⟩
    · have hboth : ∀ filter ∈ acrossColumns.filters, filter.group = crossColumnGroup := by decide
      exact absurd (hboth filter hfilter) hgroup
    · refine ⟨systemIdFilter (-1), by decide, by decide +kernel, rfl, ?_⟩
      unfold Passes
      decide +kernel

end Agiru.Series
