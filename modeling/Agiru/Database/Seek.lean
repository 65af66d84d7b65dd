import Agiru.Library.SortedRows
import Agiru.Filter.Columns
import Agiru.Record.Order

/-! The predicate that a selection seeks with, and the columns it is ordered by.

A predicate is what its text says: columns against the numbers of bound texts. Where all columns run the same way
it is one comparison of rows; else there is an alternative for each column, that all columns before it are equal
and that it decides. Either is the order of the records, as the database orders each column (`seekRecord_spec`);
where that is the order of the records' fields, it is `RecordOrder`'s (`seek_is_the_order`). -/
namespace Agiru.Database
open Lexicographic

/-! ### The selection -/

/-- What a seek asks for: `=`, `>` or `<`. -/
inductive Sought
  | equal | greater | less
  deriving Repr, DecidableEq

/-- A column against a bound text. -/
structure Compared where
  field : FieldDef
  operator : Sought
  placeholder : Nat
  deriving Repr, DecidableEq

/-- `(columns) operator (placeholders)`, or alternatives, each of them conditions that all have to hold. -/
inductive Predicate
  | tuple (columns : List (FieldDef × Nat)) (operator : Sought)
  | mixed (alternatives : List (List Compared))
  deriving Repr, DecidableEq

/-- The predicates that were added to a selection, and all texts it binds. -/
structure Selection where
  sought : List Predicate := []
  binds : List Bytes := []
  deriving Repr, DecidableEq

/-- `StorageText`. -/
def storageText (record : Record) (field : FieldDef) : Bytes :=
  match field.type with
  | .dateFormula => (record field.no).asDateFormula.stored
  | .option | .enum => intText (record field.no).ordinal.toInt
  | .date => Storage.dateStorageText (record field.no).asDate
  | .dateTime => Storage.dateTimeStorageText (record field.no).asDateTime
  | .guid => (record field.no).asGuid.hyphenated
  | .recordId => (record field.no).asRecordId.toStorageText
  | _ => fieldText record field

/-- The loop of `TuplePredicate`: the columns with their placeholders, and the texts bound so far. -/
def tupleFrom (record : Record) (columns : List (FieldDef × Nat)) (binds : List Bytes) :
    List Column → List (FieldDef × Nat) × List Bytes
  | [] => (columns, binds)
  | column :: order =>
    let binds := binds ++ [storageText record column.field]
    tupleFrom record (columns ++ [(column.field, binds.length)]) binds order

/-- `TuplePredicate`. -/
def tuplePredicate (binds : List Bytes) (order : List Column) (record : Record) (op : Sought) :
    Predicate × List Bytes :=
  let (columns, binds) := tupleFrom record [] binds order
  let comparison :=
    if op = .equal || order.head?.any (·.ascending) then op
    else if op = .greater then .less else .greater
  (.tuple columns comparison, binds)

/-- The loop of `MixedPredicate`. `before` are the columns before, each equal to its text. -/
def mixedFrom (record : Record) (op : Sought) (before : List Compared) (predicate : List (List Compared))
    (binds : List Bytes) : List Column → List (List Compared) × List Bytes
  | [] => (predicate, binds)
  | column :: order =>
    let binds := binds ++ [storageText record column.field]
    let comparison := if column.ascending then op else if op = .greater then .less else .greater
    mixedFrom record op (before ++ [⟨column.field, .equal, binds.length⟩])
      (predicate ++ [before ++ [⟨column.field, comparison, binds.length⟩]]) binds order

/-- `MixedPredicate`. -/
def mixedPredicate (binds : List Bytes) (order : List Column) (record : Record) (op : Sought) :
    Predicate × List Bytes :=
  let (alternatives, binds) := mixedFrom record op [] [] binds order
  (.mixed alternatives, binds)

/-- Whether all columns run the same way. -/
def uniform (order : List Column) : Bool :=
  order.all fun column => order.head?.any fun front => column.ascending == front.ascending

/-- `SeekRecord`. -/
def seekRecord (made : Selection) (order : List Column) (record : Record) (op : Sought) : Selection :=
  if order = [] then made
  else
    let (predicate, binds) :=
      if op = .equal || uniform order then tuplePredicate made.binds order record op
      else mixedPredicate made.binds order record op
    ⟨made.sought ++ [predicate], binds⟩

/-- `SqlRecordOrder`: the columns, and which of them fall. -/
def sqlRecordOrder (order : List Column) (descending : Bool) : List (FieldDef × Bool) :=
  order.map fun column => (column.field, descending == column.ascending)

/-! ### The database -/

/-- The order that an operator asks for. -/
def Sought.ordering : Sought → Ordering
  | .equal => .eq
  | .greater => .gt
  | .less => .lt

/-- A database's order of column values: of a row's with a bound text, where that can be read in the column's
type, and of two rows'. -/
structure Sql where
  against : Record → FieldDef → Bytes → Option Ordering
  between : FieldDef → Record → Record → Ordering

namespace Sql

variable (sql : Sql) (binds : List Bytes) (row : Record)

/-- How a row's column compares with what a placeholder stands for. -/
def order (column : FieldDef × Nat) : Option Ordering := do
  sql.against row column.1 (← binds[column.2 - 1]?)

def accepts (condition : Compared) : Option Bool := do
  return (← sql.order binds row (condition.field, condition.placeholder)) = condition.operator.ordering

def conjunction (conditions : List Compared) : Option Bool := do
  let all ← conditions.mapM (sql.accepts binds row)
  return all.all id

/-- Whether a row is selected. Rows compare from left to right, up to the first columns that are not equal. -/
def holds : Predicate → Option Bool
  | .tuple columns operator => do
    let orders ← columns.mapM (sql.order binds row)
    return first id orders = operator.ordering
  | .mixed alternatives => do
    let chosen ← alternatives.mapM (sql.conjunction binds row)
    return chosen.any id

/-- `ORDER BY`. -/
def sorts (terms : List (FieldDef × Bool)) (a b : Record) : Ordering :=
  first (fun term => if term.2 then (sql.between term.1 a b).swap else sql.between term.1 a b) terms

/-- The database orders the columns of some records in one way: a row's with another's bound text, and two rows'.
-/
structure Agrees (cmp : Record → Record → FieldDef → Ordering) (order : List Column) (among : Record → Prop) :
    Prop where
  against : ∀ column ∈ order, ∀ row record, among row → among record →
    sql.against row column.field (storageText record column.field) = some (cmp row record column.field)
  between : ∀ column ∈ order, ∀ a b, among a → among b → sql.between column.field a b = cmp a b column.field

end Sql

/-! ### The order of records -/

section
variable (cmp : Record → Record → FieldDef → Ordering)

/-- The order in one column, that rises or falls. -/
def inColumn (column : Column) (a b : Record) : Ordering :=
  if column.ascending then cmp a b column.field else cmp b a column.field

/-- The order by columns, one after another. -/
def inOrder (order : List Column) (a b : Record) : Ordering := first (fun column => inColumn cmp column a b) order

variable {cmp}

/-- `Compare` is the order by the columns, as the fields compare. -/
theorem compare_eq_inOrder (a b : Record) (order : List Column) :
    RecordOrder.compare a b order = inOrder compareField order a b := by
  induction order with
  | nil => rfl
  | cons column order ih =>
    rw [RecordOrder.compare_cons, ih]
    rfl

variable [∀ field, Std.TransCmp fun a b => cmp a b field]

variable (cmp) in
theorem cmp_swap (a b : Record) (field : FieldDef) : cmp b a field = (cmp a b field).swap :=
  @Std.OrientedCmp.eq_swap _ (fun a b => cmp a b field) _ b a

theorem inColumn_eq_iff {column : Column} {a b : Record} :
    inColumn cmp column a b = .eq ↔ cmp a b column.field = .eq := by
  unfold inColumn
  split
  · rfl
  · rw [cmp_swap cmp a b, Ordering.swap_eq_eq]

instance (column : Column) : Std.TransCmp (inColumn cmp column) := by
  unfold inColumn
  cases column.ascending with
  | true => exact inferInstanceAs (Std.TransCmp fun a b => cmp a b column.field)
  | false => exact @Std.TransCmp.opposite _ (fun a b => cmp a b column.field) _

instance (order : List Column) : Std.TransCmp (inOrder cmp order) := by
  induction order with
  | nil => exact trans_constant
  | cons column order ih =>
    have h : inOrder cmp (column :: order) = compareLex (inColumn cmp column) (inOrder cmp order) := rfl
    rw [h]
    infer_instance

/-- Columns that all run the same way order the records so, or the other way round. -/
theorem inOrder_uniform {order : List Column} {ascending : Bool}
    (h : ∀ column ∈ order, column.ascending = ascending)
    (a b : Record) : inOrder cmp order a b =
      if ascending then first (fun column => cmp a b column.field) order
      else (first (fun column => cmp a b column.field) order).swap := by
  rw [inOrder, ← first_swap]
  cases ascending with
  | true =>
    apply first_congr
    intro column hcolumn
    rw [inColumn, h column hcolumn]
    rfl
  | false =>
    apply first_congr
    intro column hcolumn
    rw [inColumn, h column hcolumn, cmp_swap cmp a b]
    rfl

end

/-! ### What the predicates say -/

/-- A condition's text is that of the record. -/
def Compared.Bound (record : Record) (binds : List Bytes) (condition : Compared) : Prop :=
  binds[condition.placeholder - 1]? = some (storageText record condition.field)

/-- The texts of the columns are bound behind those that were bound before. -/
theorem numbered_bound (record : Record) (binds : List Bytes) (order : List Column) {column : Column × Nat}
    (h : column ∈ order.zipIdx (binds.length + 1)) :
    (binds ++ order.map fun column => storageText record column.field)[column.2 - 1]? =
      some (storageText record column.1.field) := by
  obtain ⟨hlow, hhigh, hcolumn⟩ := List.mem_zipIdx h
  rw [List.getElem?_append_right (by omega), List.getElem?_map, List.getElem?_eq_getElem (by omega), Option.map_some]
  congr 3
  rw [hcolumn]
  congr 1
  omega

section
variable {cmp : Record → Record → FieldDef → Ordering} {sql : Sql} {columns : List Column} {among : Record → Prop}
  (hsql : sql.Agrees cmp columns among)
  {record row : Record} (hrow : among row) (hrecord : among record) {binds : List Bytes}
include hsql hrow hrecord

theorem accepts_bound {condition : Compared} (hfield : ∃ column ∈ columns, column.field = condition.field)
    (hbound : condition.Bound record binds) :
    sql.accepts binds row condition =
      some (decide (cmp row record condition.field = condition.operator.ordering)) := by
  obtain ⟨column, hmem, heq⟩ := hfield
  have horder := hsql.against column hmem row record hrow hrecord
  rw [heq] at horder
  rw [Sql.accepts, Sql.order, hbound]
  dsimp only [Option.bind_eq_bind, Option.bind_some]
  rw [horder]
  rfl

/-- Conditions whose texts are the record's hold where all their comparisons do. -/
theorem conjunction_bound {conditions : List Compared}
    (hfields : ∀ c ∈ conditions, ∃ column ∈ columns, column.field = c.field)
    (hbound : ∀ c ∈ conditions, c.Bound record binds) :
    sql.conjunction binds row conditions =
      some (conditions.all fun c => cmp row record c.field = c.operator.ordering) := by
  rw [Sql.conjunction, Fallible.mapM_total fun c hc => accepts_bound hsql hrow hrecord (hfields c hc) (hbound c hc)]
  dsimp only [Option.bind_eq_bind, Option.bind_some]
  rw [List.all_map]
  rfl

end

/-! ### The loops -/

/-- The columns and their placeholders. -/
theorem tupleFrom_eq (record : Record) (columns : List (FieldDef × Nat)) (binds : List Bytes)
    (order : List Column) :
    tupleFrom record columns binds order =
      (columns ++ (order.zipIdx (binds.length + 1)).map fun column => (column.1.field, column.2),
        binds ++ order.map fun column => storageText record column.field) := by
  induction order generalizing columns binds with
  | nil => simp [tupleFrom]
  | cons column order ih =>
    rw [tupleFrom, ih, List.length_append, List.length_singleton, List.zipIdx_cons, List.map_cons, List.map_cons,
      List.append_assoc, List.append_assoc]
    rfl

/-- A column that is equal to its text. -/
def tied (column : Column × Nat) : Compared := ⟨column.1.field, .equal, column.2⟩

/-- A column that decides. -/
def deciding (op : Sought) (column : Column × Nat) : Compared :=
  ⟨column.1.field, if column.1.ascending then op else if op = .greater then .less else .greater, column.2⟩

/-- There is an alternative for each column. -/
theorem mixedFrom_eq (record : Record) (op : Sought) (before : List (Column × Nat))
    (predicate : List (List Compared))
    (binds : List Bytes) (order : List Column) :
    mixedFrom record op (before.map tied) predicate binds order =
      (predicate ++ (splits before (order.zipIdx (binds.length + 1))).map
          (fun split => split.1.map tied ++ [deciding op split.2]),
        binds ++ order.map fun column => storageText record column.field) := by
  induction order generalizing before predicate binds with
  | nil => simp [mixedFrom, splits]
  | cons column order ih =>
    have hbefore : before.map tied ++ [⟨column.field, .equal, binds.length + 1⟩] =
        (before ++ [(column, binds.length + 1)]).map tied := by
      rw [List.map_append]
      rfl
    rw [mixedFrom, List.length_append, List.length_singleton, hbefore, ih, List.length_append, List.length_singleton,
      List.zipIdx_cons, splits, List.map_cons, List.map_cons, List.append_assoc, List.append_assoc]
    rfl

theorem splits_mem {α : Type} {before l : List α} {split : List α × α} (h : split ∈ splits before l) :
    (∀ a ∈ split.1, a ∈ before ++ l) ∧ split.2 ∈ l := by
  induction l generalizing before with
  | nil => exact absurd h List.not_mem_nil
  | cons a l ih =>
    rcases List.mem_cons.mp h with rfl | h
    · exact ⟨fun b hb => List.mem_append_left _ hb, List.mem_cons_self⟩
    · obtain ⟨hbefore, hmem⟩ := ih h
      rw [List.append_assoc] at hbefore
      exact ⟨hbefore, List.mem_cons_of_mem _ hmem⟩

/-! ### The predicates are the order -/

section
variable {cmp : Record → Record → FieldDef → Ordering} [∀ field, Std.TransCmp fun a b => cmp a b field]

/-- What the operator of a column asks for. -/
theorem along_ordering {op : Sought} (hop : op ≠ .equal) (column : Column) (row record : Record) :
    cmp row record column.field =
        (if column.ascending then op else if op = .greater then .less else .greater : Sought).ordering ↔
      inColumn cmp column row record = op.ordering := by
  rw [inColumn, cmp_swap cmp row record]
  cases column.ascending with
  | true => rfl
  | false =>
    cases op with
    | equal => exact absurd rfl hop
    | greater | less => cases cmp row record column.field <;> simp [Sought.ordering]

variable {sql : Sql} {order : List Column} {among : Record → Prop} (hsql : sql.Agrees cmp order among)
  (binds : List Bytes) {record row : Record} (hrow : among row) (hrecord : among record)
include hsql hrow hrecord

omit [∀ field, Std.TransCmp fun a b => cmp a b field] in
theorem tuple_holds (op : Sought) :
    sql.holds (binds ++ order.map fun column => storageText record column.field) row
        (.tuple ((order.zipIdx (binds.length + 1)).map fun column => (column.1.field, column.2)) op) =
      some (decide (first (fun column => cmp row record column.field) order = op.ordering)) := by
  have hall : ((order.zipIdx (binds.length + 1)).map fun column => (column.1.field, column.2)).mapM
      (sql.order (binds ++ order.map fun column => storageText record column.field) row) =
      some (((order.zipIdx (binds.length + 1)).map fun column => (column.1.field, column.2)).map
        fun column => cmp row record column.1) := by
    apply Fallible.mapM_total
    intro column hcolumn
    obtain ⟨numbered, hnumbered, rfl⟩ := List.mem_map.mp hcolumn
    have hmem := List.fst_mem_of_mem_zipIdx hnumbered
    rw [Sql.order, numbered_bound record binds order hnumbered]
    exact hsql.against numbered.1 hmem row record hrow hrecord
  rw [Sql.holds, hall]
  dsimp only [Option.bind_eq_bind, Option.bind_some]
  rw [first_map, first_map]
  have hcolumns : first (fun column => cmp row record column.field) order =
      first (fun column : Column × Nat => cmp row record column.1.field) (order.zipIdx (binds.length + 1)) := by
    conv_lhs => rw [← List.zipIdx_map_fst (binds.length + 1) order]
    rw [first_map]
  rw [hcolumns]
  rfl

/-- An alternative is that all columns before are equal, and that its column decides. -/
theorem alternative_holds {op : Sought} (hop : op ≠ .equal) {split : List (Column × Nat) × Column × Nat}
    (hsplit : split ∈ splits [] (order.zipIdx (binds.length + 1))) :
    sql.conjunction (binds ++ order.map fun column => storageText record column.field) row
        (split.1.map tied ++ [deciding op split.2]) =
      some (decide ((∀ column ∈ split.1, cmp row record column.1.field = .eq) ∧
        inColumn cmp split.2.1 row record = op.ordering)) := by
  obtain ⟨hbefore, hmem⟩ := splits_mem hsplit
  rw [List.nil_append] at hbefore
  have hcolumns : ∀ c ∈ split.1.map tied ++ [deciding op split.2], ∃ column ∈ order.zipIdx (binds.length + 1),
      c.field = column.1.field ∧ c.placeholder = column.2 := by
    intro c hc
    rcases List.mem_append.mp hc with hc | hc
    · obtain ⟨column, hcolumn, rfl⟩ := List.mem_map.mp hc
      exact ⟨column, hbefore column hcolumn, rfl, rfl⟩
    · rw [List.mem_singleton.mp hc]
      exact ⟨split.2, hmem, rfl, rfl⟩
  rw [conjunction_bound hsql hrow hrecord]
  · rw [Option.some_inj, Bool.eq_iff_iff, decide_eq_true_eq, List.all_append, Bool.and_eq_true, List.all_map,
      List.all_eq_true]
    apply and_congr
    · apply forall₂_congr
      intro column _
      exact decide_eq_true_iff
    · rw [List.all_cons, List.all_nil, Bool.and_true, decide_eq_true_eq]
      exact along_ordering hop split.2.1 row record
  · intro c hc
    obtain ⟨column, hcolumn, hfield, -⟩ := hcolumns c hc
    exact ⟨column.1, List.fst_mem_of_mem_zipIdx hcolumn, hfield.symm⟩
  · intro c hc
    obtain ⟨column, hcolumn, hfield, hplaceholder⟩ := hcolumns c hc
    rw [Compared.Bound, hfield, hplaceholder]
    exact numbered_bound record binds order hcolumn

theorem mixed_holds {op : Sought} (hop : op ≠ .equal) :
    sql.holds (binds ++ order.map fun column => storageText record column.field) row
        (.mixed ((splits [] (order.zipIdx (binds.length + 1))).map
          fun split => split.1.map tied ++ [deciding op split.2])) =
      some (decide (inOrder cmp order row record = op.ordering)) := by
  have hall := Fallible.mapM_total fun split hsplit => alternative_holds hsql binds hrow hrecord hop hsplit
  have hcolumns : inOrder cmp order row record =
      first (fun column : Column × Nat => inColumn cmp column.1 row record) (order.zipIdx (binds.length + 1)) := by
    rw [inOrder]
    conv_lhs => rw [← List.zipIdx_map_fst (binds.length + 1) order]
    rw [first_map]
  have hdecides : op.ordering ≠ .eq := by
    cases op with
    | equal => exact absurd rfl hop
    | greater | less => decide
  have hsplit := exists_split_iff (f := fun column : Column × Nat => inColumn cmp column.1 row record) hdecides []
    (order.zipIdx (binds.length + 1))
  rw [and_iff_right fun _ h => absurd h List.not_mem_nil] at hsplit
  rw [Sql.holds, List.mapM_map, Function.comp_def, hall]
  dsimp only [Option.bind_eq_bind, Option.bind_some]
  rw [Option.pure_def, Option.some_inj, Bool.eq_iff_iff, decide_eq_true_eq, hcolumns, List.any_map, List.any_eq_true,
    ← hsplit]
  apply exists_congr
  intro split
  apply and_congr_right
  intro _
  rw [Function.comp_apply, id, decide_eq_true_eq]
  apply and_congr_left
  intro _
  apply forall₂_congr
  intro column _
  exact inColumn_eq_iff.symm

omit hrow in
/-- The predicate that is added, and what it says. -/
theorem seekRecord_spec (made : Selection) (op : Sought) (h : order ≠ []) :
    ∃ predicate, seekRecord made order record op = ⟨made.sought ++ [predicate],
        made.binds ++ order.map fun column => storageText record column.field⟩ ∧
      ∀ row, among row → sql.holds (made.binds ++ order.map fun column => storageText record column.field) row
          predicate =
        some (decide (inOrder cmp order row record = op.ordering)) := by
  obtain ⟨front, rest, rfl⟩ := List.exists_cons_of_ne_nil h
  rw [seekRecord, if_neg h]
  by_cases htuple : (decide (op = .equal) || uniform (front :: rest)) = true
  · rw [if_pos htuple, tuplePredicate, tupleFrom_eq]
    refine ⟨_, rfl, fun row hrow => ?_⟩
    rw [List.nil_append, tuple_holds hsql made.binds hrow hrecord, Option.some_inj, Bool.eq_iff_iff, decide_eq_true_eq,
      decide_eq_true_eq]
    rw [Bool.or_eq_true, decide_eq_true_eq] at htuple
    by_cases hop : op = .equal
    · subst hop
      rw [if_pos (by simp)]
      show first _ _ = .eq ↔ first _ _ = .eq
      rw [first_eq_eq_iff, first_eq_eq_iff]
      apply forall₂_congr
      intro column _
      exact inColumn_eq_iff.symm
    · have hsame : ∀ column ∈ front :: rest, column.ascending = front.ascending := by
        have huniform := List.all_eq_true.mp (htuple.resolve_left hop)
        intro column hcolumn
        have := huniform column hcolumn
        simpa using this
      rw [inOrder_uniform hsame]
      cases hfront : front.ascending with
      | true =>
        rw [if_pos (by simp [hfront]), if_pos rfl]
      | false =>
        have hswap : ∀ o o' : Ordering, o.swap = o' ↔ o = o'.swap := by
          intro o o'
          cases o <;> cases o' <;> decide
        rw [if_neg (by simp [hop, hfront]), if_neg Bool.false_ne_true, hswap]
        cases op with
        | equal => exact absurd rfl hop
        | greater | less => rfl
  · rw [if_neg htuple, mixedPredicate]
    rw [Bool.or_eq_true, decide_eq_true_eq, not_or] at htuple
    have hloop := mixedFrom_eq record op [] [] made.binds (front :: rest)
    rw [List.map_nil] at hloop
    rw [hloop]
    exact ⟨_, rfl, fun row hrow => mixed_holds hsql made.binds hrow hrecord htuple.1⟩

omit hrow hrecord in
/-- The columns that rows are ordered by order them as the records, or backwards. -/
theorem sqlRecordOrder_sorts (descending : Bool) {a b : Record} (ha : among a) (hb : among b) :
    sql.sorts (sqlRecordOrder order descending) a b =
      if descending then inOrder cmp order b a else inOrder cmp order a b := by
  have hbetween : ∀ column ∈ order, sql.between column.field a b = cmp a b column.field :=
    fun column hcolumn => hsql.between column hcolumn a b ha hb
  rw [Sql.sorts, sqlRecordOrder, first_map]
  cases descending with
  | false =>
    rw [if_neg Bool.false_ne_true, inOrder]
    apply first_congr
    intro column hcolumn
    rw [hbetween column hcolumn, inColumn, cmp_swap cmp a b]
    cases column.ascending <;> rfl
  | true =>
    rw [if_pos rfl, inOrder]
    apply first_congr
    intro column hcolumn
    rw [hbetween column hcolumn, inColumn, cmp_swap cmp a b]
    cases column.ascending <;> rfl

end

/-- **A seek is the order of the records**, where the database orders columns as `CompareField` does. The predicate
is true of the rows that compare with the record as it asks; without columns none is added. Rows that are ordered
by the columns stand as the records are ordered, or backwards. -/
theorem seek_is_the_order (sql : Sql) (order : List Column) (among : Record → Prop)
    (hsql : sql.Agrees compareField order among) :
    (∀ made record op, order = [] → seekRecord made order record op = made) ∧
    (∀ made record op, among record → order ≠ [] → ∃ predicate binds,
      seekRecord made order record op = ⟨made.sought ++ [predicate], made.binds ++ binds⟩ ∧
      ∀ row, among row → sql.holds (made.binds ++ binds) row predicate =
        some (decide (RecordOrder.compare row record order = op.ordering))) ∧
    ∀ descending a b, among a → among b → sql.sorts (sqlRecordOrder order descending) a b =
      if descending then RecordOrder.compare b a order else RecordOrder.compare a b order := by
  refine ⟨fun made record op h => if_pos h, fun made record op hrecord h => ?_, fun descending a b ha hb => ?_⟩
  · obtain ⟨predicate, hmade, hholds⟩ := seekRecord_spec hsql hrecord made op h
    refine ⟨predicate, _, hmade, fun row hrow => ?_⟩
    rw [compare_eq_inOrder]
    exact hholds row hrow
  · rw [compare_eq_inOrder, compare_eq_inOrder]
    exact sqlRecordOrder_sorts hsql descending ha hb

/-- A database of integer columns, that reads bound texts as such. -/
def integers : Sql where
  against row field text := do
    return Ord.compare (row field.no).number (← Filter.readInteger (-2 ^ 31) (2 ^ 31 - 1) text)
  between field a b := Ord.compare (a field.no).number (b field.no).number

/-- Records of integers. -/
def OfIntegers (record : Record) : Prop := ∀ no, ∃ n, record no = .integer n

theorem integers_agrees {order : List Column} (h : ∀ column ∈ order, column.field.type = .integer) :
    integers.Agrees compareField order OfIntegers := by
  constructor
  · intro column hcolumn row record _ hrecord
    obtain ⟨n, hn⟩ := hrecord column.field.no
    have hlow := n.le_toInt
    have hhigh := n.toInt_lt
    have htext : storageText record column.field = intText n.toInt := by
      simp only [storageText, fieldText, h column hcolumn, hn]
      rfl
    rw [htext]
    show (Filter.readInteger (-2 ^ 31) (2 ^ 31 - 1) (intText n.toInt)).bind _ = _
    rw [Filter.readInteger_intText hlow (by omega), compareField, h column hcolumn, hn]
    rfl
  · intro column hcolumn a b _ _
    rw [compareField, h column hcolumn]
    rfl

/-- By a rising and a falling column. -/
theorem seek_is_the_order_integers :
    let rank : FieldDef := {no := 2, name := [], caption := [], type := .integer}
    let no : FieldDef := {no := 1, name := [], caption := [], type := .integer}
    let order : List Column := [⟨rank, false⟩, ⟨no, true⟩]
    let record : Record := fun no => .integer no.toInt32
    ∃ predicate binds, seekRecord {} order record .greater = ⟨[predicate], binds⟩ ∧
      integers.holds binds (fun _ => .integer 1) predicate = some true := by
  intro rank no order record
  have hrecord : OfIntegers record := fun no => ⟨no.toInt32, rfl⟩
  have hrow : OfIntegers fun _ => .integer 1 := fun _ => ⟨1, rfl⟩
  obtain ⟨predicate, binds, hmade, hholds⟩ :=
    (seek_is_the_order integers order OfIntegers (integers_agrees (by decide))).2.1 {} record .greater hrecord
        (by decide)
  refine ⟨predicate, binds, hmade, ?_⟩
  rw [List.nil_append] at hholds
  rw [hholds _ hrow]
  decide

end Agiru.Database
