import Agiru.Record.State

/-! The orders of records.

`ordered` is the order by a list of fields, and by the primary key's fields the order
rows stand in; `RecordOrder.compare` the order a variable walks in, each of its columns
rising or falling. Records that compare equal in the walk's order have the same primary
key. -/
namespace Agiru

variable {table : TableDef}
variable {field : FieldDef}

namespace TableDef

/-- The primary key's fields, as declared. -/
def keyColumns (table : TableDef) : List FieldDef := table.primaryKey.filterMap table.field

/-- None of the key's fields is dropped. -/
theorem keyColumns_no (table : TableDef) : table.keyColumns.map (·.no) = table.primaryKey := by
  have hall : ∀ key : List FieldNo, (∀ no ∈ key, (table.field no).isSome) →
      (key.filterMap table.field).map (·.no) = key := by
    intro key hkey
    induction key with
    | nil => rfl
    | cons no key ih =>
      obtain ⟨f, hf⟩ := Option.isSome_iff_exists.mp (hkey no List.mem_cons_self)
      rw [List.filterMap_cons_some hf, List.map_cons, (field_some hf).2,
        ih fun n hn => hkey n (List.mem_cons_of_mem _ hn)]
  exact hall _ fun no hno => table.primaryKey_declared hno

theorem keyColumns_mem (h : field ∈ table.keyColumns) : field ∈ table.fields := by
  obtain ⟨no, -, hfield⟩ := List.mem_filterMap.mp h
  exact (field_some hfield).1

end TableDef

/-- `Ordered`: by the first field in which two records differ. -/
def ordered (a b : Record) : List FieldDef → Ordering
  | [] => .eq
  | field :: fields =>
    match compareField a b field with
    | .eq => ordered a b fields
    | order => order

/-- A field a walk sorts by, and whether it rises. -/
structure Column where
  field : FieldDef
  ascending : Bool

namespace RecordOrder

/-- `RecordOrder`: the sort fields, and the fields of the primary key not among them. -/
def columns (key : List (SortField table)) (ascending : Bool) : List Column :=
  table.keyColumns.foldl
    (fun columns field =>
      if columns.any fun column => column.field.no = field.no then columns
      else columns ++ [⟨field, ascending == true⟩])
    (key.map fun sort => ⟨sort.fieldDef, ascending == sort.ascending⟩)

/-- `Compare`. -/
def compare (left right : Record) : List Column → Ordering
  | [] => .eq
  | column :: columns =>
    match compareField left right column.field with
    | .eq => compare left right columns
    | compared => if column.ascending then compared else if compared = .lt then .gt else .lt

end RecordOrder

/-! ### Both are orders -/

theorem ordered_cons (a b : Record) (field : FieldDef) (fields : List FieldDef) :
    ordered a b (field :: fields) = (compareField a b field).then (ordered a b fields) := by
  rw [ordered]
  cases compareField a b field <;> rfl

theorem ordered_eq_iff {a b : Record} {fields : List FieldDef} :
    ordered a b fields = .eq ↔ ∀ field ∈ fields, compareField a b field = .eq := by
  induction fields with
  | nil => simp [ordered]
  | cons field fields ih =>
    rw [ordered_cons, Ordering.then_eq_eq, ih, List.forall_mem_cons]

theorem trans_constant : Std.TransCmp fun _ _ : Record => Ordering.eq where
  eq_swap := rfl
  isLE_trans _ _ := rfl

instance (fields : List FieldDef) : Std.TransCmp fun a b => ordered a b fields := by
  induction fields with
  | nil => exact trans_constant
  | cons field fields ih =>
    have h : (fun a b => ordered a b (field :: fields)) =
        compareLex (fun a b => compareField a b field) fun a b => ordered a b fields := by
      funext a b
      exact ordered_cons a b field fields
    rw [h]
    infer_instance

namespace RecordOrder

theorem compareField_swap (a b : Record) (field : FieldDef) :
    compareField a b field = (compareField b a field).swap :=
  @Std.OrientedCmp.eq_swap _ (fun a b => compareField a b field) _ a b

/-- The order in one column. -/
def inColumn (column : Column) (left right : Record) : Ordering :=
  if column.ascending then compareField left right column.field
  else compareField right left column.field

theorem compare_cons (left right : Record) (column : Column) (columns : List Column) :
    compare left right (column :: columns) =
      (inColumn column left right).then (compare left right columns) := by
  rw [compare, inColumn, compareField_swap right left]
  cases compareField left right column.field <;> cases column.ascending <;> rfl

theorem inColumn_eq_iff {column : Column} {left right : Record} :
    inColumn column left right = .eq ↔ compareField left right column.field = .eq := by
  unfold inColumn
  split
  · rfl
  · rw [compareField_swap right left, Ordering.swap_eq_eq]

theorem compare_eq_iff {left right : Record} {columns : List Column} :
    compare left right columns = .eq ↔
      ∀ column ∈ columns, compareField left right column.field = .eq := by
  induction columns with
  | nil => simp [compare]
  | cons column columns ih =>
    rw [compare_cons, Ordering.then_eq_eq, inColumn_eq_iff, ih, List.forall_mem_cons]

instance (column : Column) : Std.TransCmp (inColumn column) := by
  unfold inColumn
  cases column.ascending with
  | true => exact inferInstanceAs (Std.TransCmp fun a b => compareField a b column.field)
  | false =>
    exact @Std.TransCmp.opposite _ (fun a b => compareField a b column.field) _

instance (columns : List Column) : Std.TransCmp fun a b => compare a b columns := by
  induction columns with
  | nil => exact trans_constant
  | cons column columns ih =>
    have h : (fun a b => compare a b (column :: columns)) =
        compareLex (inColumn column) fun a b => compare a b columns := by
      funext a b
      exact compare_cons a b column columns
    rw [h]
    infer_instance

/-- The fields of the primary key join the columns, and none leaves them. -/
theorem covered_from {ascending : Bool} {fields : List FieldDef} {columns : List Column}
    (hfields : ∀ field ∈ fields, field ∈ table.fields) (hcolumns : ∀ column ∈ columns, column.field ∈ table.fields)
    (h : field ∈ fields ∨ ∃ column ∈ columns, column.field = field) :
    ∃ column ∈ fields.foldl
        (fun columns field =>
          if columns.any fun column => column.field.no = field.no then columns
          else columns ++ [⟨field, ascending == true⟩]) columns,
      column.field = field := by
  induction fields generalizing columns with
  | nil => exact h.resolve_left List.not_mem_nil
  | cons first fields ih =>
    obtain ⟨hfirst, hfields⟩ := List.forall_mem_cons.mp hfields
    rw [List.foldl_cons]
    split
    · next hany =>
      refine ih hfields hcolumns ?_
      obtain ⟨column, hmem, hno⟩ := List.any_eq_true.mp hany
      have hsame : column.field = first :=
        table.field_no_injective (hcolumns column hmem) hfirst (of_decide_eq_true hno)
      rcases h with hin | hcol
      · rcases List.mem_cons.mp hin with rfl | hin
        · exact .inr ⟨column, hmem, hsame⟩
        · exact .inl hin
      · exact .inr hcol
    · refine ih hfields ?_ ?_
      · intro column hmem
        rcases List.mem_append.mp hmem with hmem | hmem
        · exact hcolumns column hmem
        · rw [List.mem_singleton.mp hmem]
          exact hfirst
      · rcases h with hin | ⟨column, hmem, hcol⟩
        · rcases List.mem_cons.mp hin with rfl | hin
          · exact .inr ⟨_, List.mem_append_right _ (List.mem_singleton_self _), rfl⟩
          · exact .inl hin
        · exact .inr ⟨column, List.mem_append_left _ hmem, hcol⟩

/-- Every field of the primary key is one of the columns. -/
theorem keyColumns_covered (key : List (SortField table)) (ascending : Bool)
    (h : field ∈ table.keyColumns) : ∃ column ∈ columns key ascending, column.field = field := by
  have hkey : ∀ field ∈ table.keyColumns, field ∈ table.fields := fun _ => table.keyColumns_mem
  refine covered_from hkey (fun column hcolumn => ?_) (.inl h)
  obtain ⟨sort, -, rfl⟩ := List.mem_map.mp hcolumn
  exact sort.fieldDef_mem

/-- Records equal in the walk's order have the same primary key. -/
theorem ordered_of_compare {key : List (SortField table)} {ascending : Bool} {a b : Record}
    (h : compare a b (columns key ascending) = .eq) : ordered a b table.keyColumns = .eq := by
  refine ordered_eq_iff.mpr fun field hfield => ?_
  obtain ⟨column, hcolumn, rfl⟩ := keyColumns_covered key ascending hfield
  exact compare_eq_iff.mp h column hcolumn

end RecordOrder

end Agiru
