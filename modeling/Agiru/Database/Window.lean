import Agiru.Database.Calls
import Agiru.Database.Seek

/-! Windows of a selection: so many rows from an end, or from beside an anchor on.

A window is one query for a row more than it shows; where that comes back, more lies beyond. Read backwards, its
rows stand in the forward order again. Window after window, each from the last row of the one before, the selection
is read once (`windows_cover_the_selection`). -/
namespace Agiru.Database
open SortedRows Temporary Lexicographic

variable {table : TableDef}

inductive WindowPosition
  | unknown | first | after | before | last
  deriving Repr, DecidableEq

/-- `RecordWindowLimit` and its like; and a query that fails. -/
inductive WindowError
  | limit | position | permission | provider | anchor | index | query
  deriving Repr, DecidableEq

/-- What else `RequireSource` asks of a record than its table's keys. -/
structure Source where
  readable : Bool := true
  temporary : Bool := false
  normal : Bool := true
  sequence : Bool := false
  deriving Repr, DecidableEq

/-- `RequireSource`. -/
def requireSource (table : TableDef) (source : Source) : Except WindowError Unit :=
  if !source.readable then .error .permission
  else if source.temporary || !source.normal || source.sequence || table.keys = [] || table.primaryKey = [] then
    .error .provider
  else .ok ()

/-- `RecordWindow`. -/
structure RecordWindow where
  rows : List Record
  limit : Nat
  backwards : Bool

namespace RecordWindow

variable (window : RecordWindow)

/-- `Size`. -/
def size : Nat := min window.limit window.rows.length

/-- `HasMore`. -/
def hasMore : Bool := window.limit < window.rows.length

/-- `Load`. -/
def load (source : Source) (index : Nat) (v : DatabaseVariable table) : Except WindowError
    (DatabaseVariable table) :=
  if window.size ≤ index then .error .index
  else do
    requireSource table source
    let row := if window.backwards then window.size - 1 - index else index
    return v.onRow (window.rows.getD row v.record) none

/-- The rows a window shows, in the forward order. -/
def shown : List Record :=
  if window.backwards then (window.rows.take window.limit).reverse else window.rows.take window.limit

end RecordWindow

/-- What `Select` makes of a record's filters and marks: the texts that are bound, and of which rows the clause
holds. -/
structure Filters where
  binds : List Bytes := []
  holds : Record → Bool

section
variable (sql : Sql) (rows : List Record) (filters : Filters) (source : Source)

/-- Whether a row is selected. -/
def selects (made : Selection) (row : Record) : Option Bool := do
  let sought ← made.sought.mapM (sql.holds made.binds row)
  return filters.holds row && sought.all id

/-- `SELECT … WHERE … ORDER BY … LIMIT`. -/
def execute (made : Selection) (terms : List (FieldDef × Bool)) (limit : Nat) : Option (List Record) := do
  let chosen ← rows.mapM (selects sql filters made)
  let kept := (rows.zip chosen).filterMap fun row => if row.2 then some row.1 else none
  return (stableSort (sql.sorts terms) kept).take limit

/-- `ReadRecordWindow`. -/
def readRecordWindow (v : DatabaseVariable table) (position : WindowPosition) (limit : Nat) :
    Except WindowError RecordWindow :=
  if limit = 0 ∨ 2 ^ 63 - 1 ≤ limit then .error .limit
  else if position = .unknown then .error .position
  else do
    requireSource table source
    if (position = .after ∨ position = .before) ∧ !v.state.positioned then .error .anchor
    else
      let order := RecordOrder.columns v.state.key v.state.ascending
      let backwards : Bool := position = .before ∨ position = .last
      let made : Selection := {binds := filters.binds}
      let made :=
        if position = .after ∨ position = .before then
          seekRecord made order v.record (if backwards then .less else .greater)
        else made
      match execute sql rows filters made (sqlRecordOrder order backwards) (limit + 1) with
      | some rows => .ok ⟨rows, limit, backwards⟩
      | none => .error .query

/-- Window after window, until no more lies beyond: each from the last row of the one before, in the direction of
reading. `none` is that the turns were too few. -/
def readWindows (backwards : Bool) (limit : Nat) :
    Nat → DatabaseVariable table → WindowPosition → Except WindowError (Option (List RecordWindow))
  | 0, _, _ => .ok none
  | turns + 1, v, position => do
    let window ← readRecordWindow sql rows filters source v position limit
    if !window.hasMore then return some [window]
    let v ← window.load source (if backwards then 0 else window.size - 1) v
    let others ← readWindows backwards limit turns v (if backwards then .before else .after)
    return others.map (window :: ·)

end

/-! ### One query -/

section
variable {cmp : Record → Record → FieldDef → Ordering} [∀ field, Std.TransCmp fun a b => cmp a b field]
variable {sql : Sql} {rows : List Record} {filters : Filters} {source : Source} {v : DatabaseVariable table}
  {among : Record → Prop}

/-- The columns a variable's rows are ordered by. -/
abbrev sortColumns (v : DatabaseVariable table) : List Column := RecordOrder.columns v.state.key v.state.ascending

/-- The order of a variable's rows. -/
abbrev sorting (cmp : Record → Record → FieldDef → Ordering) (v : DatabaseVariable table) :
    Record → Record → Ordering := inOrder cmp (sortColumns v)

/-- What the filters select, in the order of the rows. -/
def selection (cmp : Record → Record → FieldDef → Ordering) (rows : List Record) (filters : Filters)
    (v : DatabaseVariable table) : List Record := stableSort (sorting cmp v) (rows.filter filters.holds)

/-- No two rows have all fields of the primary key equal. -/
def KeyedApart (cmp : Record → Record → FieldDef → Ordering) (table : TableDef) (rows : List Record) : Prop :=
  rows.Pairwise fun a b => ∃ field ∈ table.keyColumns, cmp a b field ≠ .eq

theorem sorting_ne_eq {a b : Record} (h : ∃ field ∈ table.keyColumns, cmp a b field ≠ .eq) : sorting cmp v a b ≠
    .eq := by
  obtain ⟨field, hfield, hne⟩ := h
  obtain ⟨column, hcolumn, rfl⟩ := RecordOrder.keyColumns_covered v.state.key v.state.ascending hfield
  intro heq
  exact hne (inColumn_eq_iff.mp (first_eq_eq_iff.mp heq column hcolumn))

/-- A query's rows are those that its predicates hold of, sorted. -/
theorem execute_eq {made : Selection} {terms : List (FieldDef × Bool)} {limit : Nat} {sought : Record → Bool}
    {order : Record → Record → Ordering} (hselects : ∀ row ∈ rows,
      selects sql filters made row = some (filters.holds row && sought row))
    (hsorts : ∀ a ∈ rows, ∀ b ∈ rows, sql.sorts terms a b = order a b) :
    execute sql rows filters made terms limit =
      some ((stableSort order (rows.filter fun row => filters.holds row && sought row)).take limit) := by
  have hkept : ∀ (l : List Record) (p : Record → Bool),
      ((l.zip (l.map p)).filterMap fun row => if row.2 then some row.1 else none) = l.filter p := by
    intro l p
    induction l with
    | nil => rfl
    | cons row l ih =>
      rw [List.map_cons, List.zip_cons_cons, List.filterMap_cons, List.filter_cons, ih]
      cases p row <;> rfl
  rw [execute, Fallible.mapM_total hselects]
  dsimp only [Option.bind_eq_bind, Option.bind_some]
  rw [hkept, stableSort_congr fun a ha b hb => hsorts a (List.mem_filter.mp ha).1 b (List.mem_filter.mp hb).1]
  rfl

/-- Whether windows are read from the end. -/
def WindowPosition.backwards (position : WindowPosition) : Bool := position = .before ∨ position = .last

/-- Whether a row is beyond the anchor. -/
def beyond (cmp : Record → Record → FieldDef → Ordering) (v : DatabaseVariable table) (position : WindowPosition)
    (row : Record) : Bool :=
  match position with
  | .after => sorting cmp v row v.record = .gt
  | .before => sorting cmp v row v.record = .lt
  | _ => true

/-- The selected rows beyond the anchor, in the direction of reading. -/
def ahead (cmp : Record → Record → FieldDef → Ordering) (rows : List Record) (filters : Filters)
    (v : DatabaseVariable table) (position : WindowPosition) : List Record :=
  let forward := (selection cmp rows filters v).filter (beyond cmp v position)
  if position.backwards then forward.reverse else forward

theorem sortColumns_ne_nil (h : table.primaryKey ≠ []) : sortColumns v ≠ [] := by
  have hkey : table.keyColumns ≠ [] := by
    intro hnil
    have hno := table.keyColumns_no
    rw [hnil] at hno
    exact h hno.symm
  obtain ⟨field, rest, hfields⟩ := List.exists_cons_of_ne_nil hkey
  obtain ⟨column, hcolumn, -⟩ := RecordOrder.keyColumns_covered v.state.key v.state.ascending
    (hfields ▸ List.mem_cons_self : field ∈ table.keyColumns)
  exact List.ne_nil_of_mem hcolumn

theorem selection_increasing (filters : Filters) (v : DatabaseVariable table)
    (hdistinct : KeyedApart cmp table rows) :
    Increasing (sorting cmp v) (selection cmp rows filters v) :=
  increasing_stableSort ((List.Pairwise.sublist List.filter_sublist hdistinct).imp sorting_ne_eq)

/-- The rows of a query are those ahead. -/
theorem sorted_eq_ahead (hdistinct : KeyedApart cmp table rows) (position : WindowPosition) :
    stableSort (if position.backwards then fun a b => sorting cmp v b a else sorting cmp v)
        (rows.filter fun row => filters.holds row && beyond cmp v position row) =
      ahead cmp rows filters v position := by
  have hboth : (rows.filter fun row => filters.holds row && beyond cmp v position row) =
      (rows.filter filters.holds).filter (beyond cmp v position) := by
    rw [List.filter_filter]
    exact List.filter_congr fun row _ => Bool.and_comm _ _
  have hperm : ((rows.filter filters.holds).filter (beyond cmp v position)).Perm
      ((selection cmp rows filters v).filter (beyond cmp v position)) :=
    (List.perm_insertionSort _ _).symm.filter _
  have hne : ((rows.filter filters.holds).filter (beyond cmp v position)).Pairwise
      fun a b => sorting cmp v a b ≠ .eq :=
    (List.Pairwise.sublist (List.filter_sublist.trans List.filter_sublist) hdistinct).imp sorting_ne_eq
  have hforward : Increasing (sorting cmp v) ((selection cmp rows filters v).filter (beyond cmp v position)) :=
    (selection_increasing filters v hdistinct).sublist List.filter_sublist
  rw [hboth, ahead]
  split
  · have hback : Std.TransCmp fun a b => sorting cmp v b a := Std.TransCmp.opposite
    apply eq_of_perm (increasing_stableSort (hne.imp fun hne heq => hne (Std.OrientedCmp.eq_comm.mp heq)))
    · exact List.pairwise_reverse.mpr hforward
    · exact (List.perm_insertionSort _ _).trans (hperm.trans (List.reverse_perm _).symm)
  · exact eq_of_perm (increasing_stableSort hne) hforward ((List.perm_insertionSort _ _).trans hperm)

/-- A window is read of the rows ahead, one more than it shows. -/
theorem readRecordWindow_eq (filters : Filters) (hsql : sql.Agrees cmp (sortColumns v) among)
    (hrows : ∀ row ∈ rows, among row)
    (hdistinct : KeyedApart cmp table rows) (hsource : requireSource table source = .ok ())
    {position : WindowPosition} (hposition : position ≠ .unknown)
    (hanchor : position = .after ∨ position = .before → v.state.positioned = true ∧ among v.record)
    {limit : Nat} (hlimit : 0 < limit) (hbound : limit < 2 ^ 63 - 1) :
    readRecordWindow sql rows filters source v position limit =
      .ok ⟨(ahead cmp rows filters v position).take (limit + 1), limit, position.backwards⟩ := by
  have hkey : table.primaryKey ≠ [] := by
    intro hnil
    rw [requireSource] at hsource
    split at hsource
    · cases hsource
    · rw [if_pos (by simp [hnil])] at hsource
      cases hsource
  have hsorts : ∀ a ∈ rows, ∀ b ∈ rows, sql.sorts (sqlRecordOrder (sortColumns v) position.backwards) a b =
      (if position.backwards then fun a b => sorting cmp v b a else sorting cmp v) a b := by
    intro a ha b hb
    rw [sqlRecordOrder_sorts hsql _ (hrows a ha) (hrows b hb)]
    split <;> rfl
  have hexecute : ∀ made, (∀ row ∈ rows,
        selects sql filters made row = some (filters.holds row && beyond cmp v position row)) →
      execute sql rows filters made (sqlRecordOrder (sortColumns v) position.backwards) (limit + 1) =
        some ((ahead cmp rows filters v position).take (limit + 1)) := by
    intro made hselects
    rw [execute_eq hselects hsorts, sorted_eq_ahead hdistinct]
  rw [readRecordWindow, if_neg (by omega), if_neg hposition, hsource]
  show (if _ then _ else _) = _
  by_cases hrelative : position = .after ∨ position = .before
  · obtain ⟨hpositioned, hrecord⟩ := hanchor hrelative
    rw [if_neg (by simp [hpositioned])]
    obtain ⟨predicate, hmade, hholds⟩ := seekRecord_spec hsql hrecord {binds := filters.binds}
      (if position.backwards then .less else .greater) (sortColumns_ne_nil hkey)
    have hselects : ∀ row ∈ rows, selects sql filters (seekRecord {binds := filters.binds} (sortColumns v) v.record
        (if position.backwards then .less else .greater)) row =
          some (filters.holds row && beyond cmp v position row) := by
      intro row hrow
      rw [selects, hmade]
      show (do
        let sought ← [predicate].mapM _
        return filters.holds row && sought.all id) = _
      rw [List.mapM_cons, hholds row (hrows row hrow)]
      rcases hrelative with rfl | rfl
      · simp [WindowPosition.backwards, beyond, Sought.ordering]
      · simp [WindowPosition.backwards, beyond, Sought.ordering]
    rw [if_pos hrelative]
    have hread := hexecute _ hselects
    unfold WindowPosition.backwards at hread ⊢
    rw [hread]
  · rw [if_neg (fun h => hrelative h.1)]
    have hselects : ∀ row ∈ rows, selects sql filters {binds := filters.binds} row =
        some (filters.holds row && beyond cmp v position row) := by
      intro row _
      have hall : beyond cmp v position row = true := by
        cases position with
        | after => exact absurd (.inl rfl) hrelative
        | before => exact absurd (.inr rfl) hrelative
        | _ => rfl
      rw [selects, hall]
      rfl
    rw [if_neg hrelative]
    have hread := hexecute _ hselects
    unfold WindowPosition.backwards at hread ⊢
    rw [hread]

/-! ### Window after window -/

/-- The selection in the direction of reading, and its order. -/
def reading (cmp : Record → Record → FieldDef → Ordering) (rows : List Record) (filters : Filters)
    (v : DatabaseVariable table) (backwards : Bool) : List Record :=
  if backwards then (selection cmp rows filters v).reverse else selection cmp rows filters v

def toward (cmp : Record → Record → FieldDef → Ordering) (v : DatabaseVariable table) (backwards : Bool) :
    Record → Record → Ordering := if backwards then fun a b => sorting cmp v b a else sorting cmp v

instance (backwards : Bool) : Std.TransCmp (toward cmp v backwards) := by
  cases backwards with
  | false => exact inferInstanceAs (Std.TransCmp (sorting cmp v))
  | true => exact @Std.TransCmp.opposite _ (sorting cmp v) _

theorem reading_increasing (filters : Filters) (v : DatabaseVariable table) (hdistinct : KeyedApart cmp table rows)
    (backwards : Bool) :
    Increasing (toward cmp v backwards) (reading cmp rows filters v backwards) := by
  have hforward := selection_increasing filters v hdistinct
  cases backwards with
  | false => exact hforward
  | true => exact List.pairwise_reverse.mpr hforward

omit [∀ field, Std.TransCmp fun a b => cmp a b field] in
theorem ahead_reading (position : WindowPosition) :
    ahead cmp rows filters v position = (reading cmp rows filters v position.backwards).filter
        (beyond cmp v position) := by
  rw [ahead, reading]
  split
  · rw [List.filter_reverse]
  · rfl

/-- What is ahead of one of the rows is what is read after it. -/
theorem ahead_next (hdistinct : KeyedApart cmp table rows) {backwards : Bool} {before after : List Record}
    {row : Record}
    (h : reading cmp rows filters v backwards = before ++ row :: after) :
    ahead cmp rows filters (v.onRow row none) (if backwards then .before else .after) = after := by
  have hincreasing := reading_increasing filters v hdistinct backwards
  rw [h] at hincreasing
  have hafter := following_append hincreasing
  rw [ahead_reading]
  have hreading : ∀ b, reading cmp rows filters (v.onRow row none) b = reading cmp rows filters v b := fun _ => rfl
  cases backwards with
  | false =>
    rw [if_neg Bool.false_ne_true, show WindowPosition.backwards .after = false from rfl, hreading, h]
    exact hafter
  | true =>
    rw [if_pos rfl, show WindowPosition.backwards .before = true from rfl, hreading, h]
    refine (List.filter_congr fun other _ => ?_).trans hafter
    show decide (sorting cmp v other row = .lt) = decide (sorting cmp v row other = .gt)
    rw [decide_eq_decide, Std.OrientedCmp.gt_iff_lt]

namespace RecordWindow

variable {window : RecordWindow}

theorem shown_length : window.shown.length = window.size := by
  rw [shown, size]
  split
  · rw [List.length_reverse, List.length_take]
  · rw [List.length_take]

/-- What is loaded by a number is what stands there in the forward order. -/
theorem load_eq (hsource : requireSource table source = .ok ()) {index : Nat} (h : index < window.shown.length) :
    window.load source index v = .ok (v.onRow window.shown[index] none) := by
  have hsize : index < window.size := shown_length ▸ h
  have hmin : window.size ≤ window.rows.length := Nat.min_le_right _ _
  have hlimit : window.size ≤ window.limit := Nat.min_le_left _ _
  rw [load, if_neg (Nat.not_le.mpr hsize), hsource]
  show Except.ok _ = _
  congr 2
  cases hback : window.backwards with
  | false =>
    have hshown : window.shown = window.rows.take window.limit := by rw [shown, hback, if_neg Bool.false_ne_true]
    rw [if_neg Bool.false_ne_true, List.getD_eq_getElem?_getD, List.getElem?_eq_getElem (by omega), Option.getD_some]
    simp only [hshown, List.getElem_take]
  | true =>
    have hshown : window.shown = (window.rows.take window.limit).reverse := by rw [shown, hback, if_pos rfl]
    have hlength : (window.rows.take window.limit).length = window.size := List.length_take
    rw [if_pos rfl, List.getD_eq_getElem?_getD, List.getElem?_eq_getElem (by omega), Option.getD_some]
    simp only [hshown, List.getElem_reverse, List.getElem_take, hlength]

end RecordWindow

section
variable (hsql : sql.Agrees cmp (sortColumns v) among) (hrows : ∀ row ∈ rows, among row)
  (hdistinct : KeyedApart cmp table rows) (hsource : requireSource table source = .ok ())
  {limit : Nat} (hlimit : 0 < limit) (hbound : limit < 2 ^ 63 - 1)
include hsql hrows hdistinct hsource hlimit hbound

/-- From a position on, the windows are what is ahead, cut into pieces. -/
theorem readWindows_eq {backwards : Bool} {turns : Nat} {position : WindowPosition} {before rest : List Record}
    (hposition : position ≠ .unknown) (hback : position.backwards = backwards)
    (hanchor : position = .after ∨ position = .before → v.state.positioned = true ∧ among v.record)
    (hreading : reading cmp rows filters v backwards = before ++ rest)
        (hahead : ahead cmp rows filters v position = rest)
    (hturns : rest.length < turns) :
    ∃ windows, readWindows sql rows filters source backwards limit turns v position = .ok (some windows) ∧
      windows.flatMap (fun window => window.rows.take window.limit) = rest ∧
      ∀ window ∈ windows, window.backwards = backwards := by
  induction turns generalizing v position before rest with
  | zero => exact absurd hturns (Nat.not_lt_zero _)
  | succ turns ih =>
    have hread := readRecordWindow_eq filters hsql hrows hdistinct hsource hposition hanchor hlimit hbound
    rw [hahead, hback] at hread
    have htake : (rest.take (limit + 1)).take limit = rest.take limit := by
      rw [List.take_take, Nat.min_eq_left (Nat.le_succ _)]
    rw [readWindows, hread]
    by_cases hmore : limit < rest.length
    · -- the window shows its limit, and the next begins behind its last row
      have hsize : limit - 1 < rest.length := by omega
      have hcut : rest = rest.take (limit - 1) ++ rest[limit - 1] :: rest.drop limit := by
        have hsucc : limit - 1 + 1 = limit := by omega
        conv_lhs => rw [← List.take_append_drop (limit - 1) rest, List.drop_eq_getElem_cons hsize, hsucc]
      have hreading' : reading cmp rows filters v backwards =
          (before ++ rest.take (limit - 1)) ++ rest[limit - 1] :: rest.drop limit := by
        rw [hreading, List.append_assoc]
        exact congrArg _ hcut
      have hin : rest[limit - 1] ∈ rows := by
        have hmem : rest[limit - 1] ∈ reading cmp rows filters v backwards := by
          rw [hreading']
          simp
        have hselected : rest[limit - 1] ∈ selection cmp rows filters v := by
          unfold reading at hmem
          split at hmem
          · exact List.mem_reverse.mp hmem
          · exact hmem
        exact (List.mem_filter.mp (mem_stableSort.mp hselected)).1
      have hload : RecordWindow.load ⟨rest.take (limit + 1), limit, backwards⟩ source
          (if backwards then 0 else RecordWindow.size ⟨rest.take (limit + 1), limit, backwards⟩ - 1) v =
          .ok (v.onRow rest[limit - 1] none) := by
        have hwindow : RecordWindow.size ⟨rest.take (limit + 1), limit, backwards⟩ = limit := by
          show min limit (rest.take (limit + 1)).length = limit
          rw [List.length_take]
          omega
        rw [RecordWindow.load, hwindow, hsource]
        have hrow : ∀ record : Record, (rest.take (limit + 1)).getD (limit - 1) record = rest[limit - 1] := by
          intro record
          rw [List.getD_eq_getElem?_getD, List.getElem?_take_of_lt (by omega), List.getElem?_eq_getElem hsize,
            Option.getD_some]
        cases backwards with
        | false =>
          rw [if_neg Bool.false_ne_true, if_neg (by omega)]
          show Except.ok (v.onRow ((rest.take (limit + 1)).getD (limit - 1) v.record) none) = _
          rw [hrow]
        | true =>
          rw [if_pos rfl, if_neg (by omega)]
          show Except.ok (v.onRow ((rest.take (limit + 1)).getD (limit - 1 - 0) v.record) none) = _
          rw [Nat.sub_zero, hrow]
      obtain ⟨windows, hwindows, hflat, hsides⟩ := @ih (v.onRow rest[limit - 1] none) hsql
        (if backwards then .before else .after) (before ++ rest.take (limit - 1) ++ [rest[limit - 1]])
        (rest.drop limit) (by cases backwards <;> decide) (by cases backwards <;> rfl)
        (fun _ => ⟨rfl, hrows _ hin⟩) (by rw [List.append_assoc (before ++ _)]; exact hreading')
        (ahead_next hdistinct hreading') (by rw [List.length_drop]; omega)
      refine ⟨⟨rest.take (limit + 1), limit, backwards⟩ :: windows, ?_, ?_, ?_⟩
      · have hmany : RecordWindow.hasMore ⟨rest.take (limit + 1), limit, backwards⟩ = true := by
          show decide (limit < (rest.take (limit + 1)).length) = true
          rw [decide_eq_true_eq, List.length_take]
          omega
        show (if _ then _ else _) = _
        rw [hmany, if_neg (by decide)]
        show (RecordWindow.load _ source _ v).bind _ = _
        rw [hload]
        show (readWindows _ _ _ _ _ _ _ _ _).bind _ = _
        rw [hwindows]
        rfl
      · rw [List.flatMap_cons, hflat]
        dsimp only
        rw [htake, List.take_append_drop]
      · intro window hwindow
        rcases List.mem_cons.mp hwindow with rfl | hwindow
        · rfl
        · exact hsides window hwindow
    · -- nothing lies beyond
      have hlast : RecordWindow.hasMore ⟨rest.take (limit + 1), limit, backwards⟩ = false := by
        show decide (limit < (rest.take (limit + 1)).length) = false
        rw [decide_eq_false_iff_not, List.length_take]
        omega
      refine ⟨[⟨rest.take (limit + 1), limit, backwards⟩], ?_, ?_, ?_⟩
      · show (if _ then _ else _) = _
        rw [hlast, if_pos (by decide)]
        rfl
      · rw [List.flatMap_singleton]
        dsimp only
        rw [htake, List.take_of_length_le (Nat.le_of_not_lt hmore)]
      · intro window hwindow
        rw [List.mem_singleton.mp hwindow]

/-- More lies beyond a window where a selected row does. -/
theorem hasMore_iff {position : WindowPosition} {window : RecordWindow}
    (hposition : position ≠ .unknown)
    (hanchor : position = .after ∨ position = .before → v.state.positioned = true ∧ among v.record)
    (h : readRecordWindow sql rows filters source v position limit = .ok window) :
    window.hasMore = true ↔ ∃ row ∈ rows, filters.holds row = true ∧ beyond cmp v position row = true ∧
      ∀ shown ∈ window.shown, sorting cmp v row shown = if position.backwards then .lt else .gt := by
  rw [readRecordWindow_eq filters hsql hrows hdistinct hsource hposition hanchor hlimit hbound] at h
  obtain rfl := Except.ok.inj h
  have hincreasing : Increasing (toward cmp v position.backwards) (ahead cmp rows filters v position) := by
    rw [ahead_reading]
    exact (reading_increasing filters v hdistinct _).sublist List.filter_sublist
  have hmem : ∀ row, row ∈ ahead cmp rows filters v position ↔
      row ∈ rows ∧ filters.holds row = true ∧ beyond cmp v position row = true := by
    intro row
    have hreading : row ∈ reading cmp rows filters v position.backwards ↔ row ∈ selection cmp rows filters v := by
      unfold reading
      split
      · exact List.mem_reverse
      · rfl
    rw [ahead_reading, List.mem_filter, hreading, selection, mem_stableSort, List.mem_filter, and_assoc]
  have hshown : ∀ shown, shown ∈ RecordWindow.shown
        ⟨(ahead cmp rows filters v position).take (limit + 1), limit, position.backwards⟩ ↔
      shown ∈ (ahead cmp rows filters v position).take limit := by
    intro shown
    have htake : ((ahead cmp rows filters v position).take (limit + 1)).take limit =
        (ahead cmp rows filters v position).take limit := by
      rw [List.take_take, Nat.min_eq_left (Nat.le_succ _)]
    unfold RecordWindow.shown
    dsimp only
    rw [htake]
    split
    · exact List.mem_reverse
    · rfl
  have hbehind : ∀ row shown, toward cmp v position.backwards shown row = .lt ↔
      sorting cmp v row shown = if position.backwards then .lt else .gt := by
    intro row shown
    unfold toward
    cases position.backwards with
    | false =>
      rw [if_neg Bool.false_ne_true, if_neg Bool.false_ne_true]
      exact Std.OrientedCmp.gt_iff_lt.symm
    | true =>
      rw [if_pos rfl, if_pos rfl]
  show decide (limit < ((ahead cmp rows filters v position).take (limit + 1)).length) = true ↔ _
  rw [decide_eq_true_eq, List.length_take]
  constructor
  · intro hless
    have hlong : limit < (ahead cmp rows filters v position).length := by omega
    obtain ⟨hrow, hholds, hbeyond⟩ := (hmem _).mp (List.getElem_mem hlong)
    refine ⟨_, hrow, hholds, hbeyond, fun shown hin => ?_⟩
    obtain ⟨i, hi, rfl⟩ := List.getElem_of_mem ((hshown shown).mp hin)
    have hfew : i < limit := by
      rw [List.length_take] at hi
      omega
    rw [← hbehind, List.getElem_take]
    exact List.pairwise_iff_getElem.mp hincreasing i limit (by omega) hlong hfew
  · intro hrow
    obtain ⟨row, hrow, hholds, hbeyond, hall⟩ := hrow
    by_contra hless
    have hshort : (ahead cmp rows filters v position).length ≤ limit := by omega
    have hin := (hmem row).mpr ⟨hrow, hholds, hbeyond⟩
    have hself := (hbehind row row).mpr (hall row ((hshown row).mpr (by rwa [List.take_of_length_le hshort])))
    have heq : toward cmp v position.backwards row row = .eq := Std.ReflCmp.compare_self
    rw [heq] at hself
    cases hself

/-- **Windows cover the selection.** Read from an end window after window, each from the last row of the one
before, the windows are the selected rows, each once and in their order; from the last window on in the order as
well, the windows the other way round. A window shows its limit at most and loads what it shows, and more lies
beyond it where a selected row does. -/
theorem windows_cover_the_selection :
    ((selection cmp rows filters v).Perm (rows.filter filters.holds) ∧
      (selection cmp rows filters v).Pairwise fun a b => sorting cmp v a b = .lt) ∧
    (∀ turns, (selection cmp rows filters v).length < turns →
      (∃ windows, readWindows sql rows filters source false limit turns v .first = .ok (some windows) ∧
        windows.flatMap (·.shown) = selection cmp rows filters v) ∧
      ∃ windows, readWindows sql rows filters source true limit turns v .last = .ok (some windows) ∧
        windows.reverse.flatMap (·.shown) = selection cmp rows filters v) ∧
    ∀ position, position ≠ .unknown →
      (position = .after ∨ position = .before → v.state.positioned = true ∧ among v.record) →
      ∃ window, readRecordWindow sql rows filters source v position limit = .ok window ∧
        window.shown.length ≤ limit ∧
        (∀ index (h : index < window.shown.length),
          window.load source index v = .ok (v.onRow window.shown[index] none)) ∧
        (window.hasMore = true ↔ ∃ row ∈ rows, filters.holds row = true ∧ beyond cmp v position row = true ∧
          ∀ shown ∈ window.shown, sorting cmp v row shown = if position.backwards then .lt else .gt) := by
  refine ⟨⟨List.perm_insertionSort _ _, selection_increasing filters v hdistinct⟩, fun turns hturns => ⟨?_, ?_⟩, ?_⟩
  · obtain ⟨windows, hwindows, hflat, hsides⟩ := @readWindows_eq table cmp _ sql rows filters source v among
      hsql hrows
      hdistinct hsource limit hlimit hbound false turns .first []
      (selection cmp rows filters v) (by decide) rfl (by simp) rfl
      (List.filter_true _) hturns
    refine ⟨windows, hwindows, ?_⟩
    rw [← hflat]
    apply List.flatMap_congr
    intro window hwindow
    rw [RecordWindow.shown, hsides window hwindow, if_neg Bool.false_ne_true]
  · obtain ⟨windows, hwindows, hflat, hsides⟩ := @readWindows_eq table cmp _ sql rows filters source v among
      hsql hrows
      hdistinct hsource limit hlimit hbound true turns .last []
      (selection cmp rows filters v).reverse (by decide) rfl (by simp) rfl
      (congrArg List.reverse (List.filter_true _)) (by rwa [List.length_reverse])
    refine ⟨windows, hwindows, ?_⟩
    have hforward : (windows.flatMap fun window => window.rows.take window.limit).reverse =
        selection cmp rows filters v := by
      rw [hflat, List.reverse_reverse]
    rw [← hforward, List.reverse_flatMap]
    apply List.flatMap_congr
    intro window hwindow
    rw [RecordWindow.shown, hsides window (List.mem_reverse.mp hwindow), if_pos rfl]
    rfl
  · intro position hposition hanchor
    have hread := readRecordWindow_eq filters hsql hrows hdistinct hsource hposition hanchor hlimit hbound
    refine ⟨_, hread, ?_, fun index h => RecordWindow.load_eq hsource h,
      hasMore_iff hsql hrows hdistinct hsource hlimit hbound hposition hanchor hread⟩
    rw [RecordWindow.shown_length]
    exact Nat.min_le_left _ _

end

end

/-- Three rows, two in a window. -/
theorem windows_cover_three :
    let rows : List Record := [item 2 20, item 1 30, item 3 10]
    let filters : Filters := {holds := fun _ => true}
    let v : DatabaseVariable items := {record := item 0 0}
    ∃ windows, readWindows integers rows filters {} false 2 4 v .first = .ok (some windows) ∧
      windows.flatMap (·.shown) = selection compareField rows filters v := by
  intro rows filters v
  have hitem : ∀ no rank, OfIntegers (item no rank) := fun no rank field => ⟨_, rfl⟩
  have hrows : ∀ row ∈ rows, OfIntegers row := by
    intro row hrow
    simp only [rows, List.mem_cons, List.not_mem_nil, or_false] at hrow
    rcases hrow with rfl | rfl | rfl
    · exact hitem 2 20
    · exact hitem 1 30
    · exact hitem 3 10
  have hsql : integers.Agrees compareField (sortColumns v) OfIntegers := integers_agrees (by decide)
  have hcover := @windows_cover_the_selection items compareField _ integers rows filters {} v OfIntegers hsql hrows
    (by unfold KeyedApart; decide) rfl 2 (by decide) (by decide)
  exact (hcover.2.1 4 (by decide)).1

end Agiru.Database
