import Agiru.Filter.Match

/-! What a record variable keeps beside its fields.

The filters and the sort fields of a variable name fields its table declares, which is
a part of them here: what reads them never raises. The view of a variable is what its
last find selected, by row numbers, with the selection that built it.

A record passes all filters of its fields but those of the cross-column group, of
which, where there are any, it passes one. A flow filter selects no records. -/
namespace Agiru

namespace TableDef
variable {table : TableDef}

theorem rising (table : TableDef) (no : FieldNo) :
    Search.Rising (fun f => Ord.compare f.no no) table.fields :=
  table.sorted.imp fun {a b} hab => by
    rw [Nat.compare_eq_lt, Nat.compare_eq_gt]
    rcases Nat.lt_or_ge a.no no with hlow | hhigh
    · exact .inl hlow
    · exact .inr (Nat.lt_of_le_of_lt hhigh hab)

/-- No two fields share a number. -/
theorem field_no_injective {f g : FieldDef} (hf : f ∈ table.fields) (hg : g ∈ table.fields)
    (h : f.no = g.no) : f = g := by
  have hnodup : (table.fields.map (·.no)).Nodup :=
    List.pairwise_map.mpr (table.sorted.imp Nat.ne_of_lt)
  exact List.inj_on_of_nodup_map hnodup hf hg h

/-- A table finds each of its fields by number. -/
theorem field_of_mem {f : FieldDef} (h : f ∈ table.fields) : table.field f.no = some f := by
  rw [field, Search.search_eq (table.rising f.no)]
  cases hfind : table.fields.find? fun x => Ord.compare x.no f.no = .eq with
  | none =>
    have := List.find?_eq_none.mp hfind f h
    simp at this
  | some g =>
    have hno : g.no = f.no := by simpa using List.find?_some hfind
    rw [field_no_injective (List.mem_of_find?_eq_some hfind) h hno]

theorem field_some {no : FieldNo} {f : FieldDef} (h : table.field no = some f) :
    f ∈ table.fields ∧ f.no = no := by
  obtain ⟨hmem, heq⟩ := Search.search_some h
  exact ⟨hmem, by simpa using heq⟩

/-- Every field of a key is declared. -/
theorem key_declared {key : KeyDef} (hkey : key ∈ table.keys) {no : FieldNo}
    (hno : no ∈ key.fields) : (table.field no).isSome := by
  obtain ⟨f, hf, rfl⟩ := table.keyed key hkey no hno
  rw [field_of_mem hf]
  rfl

theorem primaryKey_declared {no : FieldNo} (h : no ∈ table.primaryKey) :
    (table.field no).isSome := by
  unfold primaryKey at h
  split at h
  · cases h
  · next key _ hkeys => exact key_declared (hkeys ▸ List.mem_cons_self) h

end TableDef

/-- A filter on a declared field, and the group it stands in. -/
structure FieldFilter (table : TableDef) where
  field : FieldNo
  group : Int
  text : Bytes
  declared : (table.field field).isSome
  deriving DecidableEq

/-- A declared field a variable sorts by. -/
structure SortField (table : TableDef) where
  field : FieldNo
  ascending : Bool := true
  declared : (table.field field).isSome
  deriving DecidableEq

variable {table : TableDef}

def FieldFilter.fieldDef (filter : FieldFilter table) : FieldDef :=
  (table.field filter.field).get filter.declared

def SortField.fieldDef (sort : SortField table) : FieldDef :=
  (table.field sort.field).get sort.declared

theorem SortField.fieldDef_mem (sort : SortField table) : sort.fieldDef ∈ table.fields :=
  (TableDef.field_some (Option.some_get sort.declared).symm).1

/-- `kCrossColumnGroup`. -/
def crossColumnGroup : Int := -1

structure RecordState (table : TableDef) where
  view : List Nat := []
  «at» : Nat := 0
  viewVersion : UInt64 := 0
  viewFilters : List (FieldFilter table) := []
  viewKey : List (SortField table) := []
  viewAscending : Bool := true
  viewDirty : Bool := true
  filters : List (FieldFilter table) := []
  key : List (SortField table) := []
  ascending : Bool := true
  group : Int := 0
  marks : Finset Bytes := ∅
  markedOnly : Bool := false
  positioned : Bool := false

/-- A record variable. -/
structure Variable (table : TableDef) where
  record : Record
  state : RecordState table := {}

/-- `MarkKey`: the texts of the primary key, a separator between them. -/
def markKey (table : TableDef) (record : Record) : Bytes :=
  (table.primaryKey.filterMap table.field).foldl
    (fun out field =>
      (if out = [] then out else out ++ [Bytes.Ch.unitSeparator]) ++ fieldText record field) []

end Agiru

namespace Agiru.RecordFilter

variable {table : TableDef}

/-- A filter, read. -/
structure Bound where
  field : FieldDef
  expression : Filter.Expression
  crossColumn : Bool

/-- `RecordFilter`. -/
def bound (filters : List (FieldFilter table)) : List Bound :=
  filters.filterMap fun filter =>
    if filter.fieldDef.fieldClass = .flowFilter then none
    else some ⟨filter.fieldDef, Filter.parseFilter filter.text, filter.group = crossColumnGroup⟩

/-- The text a filter compares: a record identifier and a date formula as they are
stored, any other field as it is shown. -/
def compared (row : Record) (field : FieldDef) : Bytes :=
  match field.type with
  | .recordId => (row field.no).asRecordId.toStorageText
  | .dateFormula => (row field.no).asDateFormula.stored
  | _ => fieldText row field

def Bound.passes (filter : Bound) (row : Record) : Bool :=
  Filter.matchesValue filter.expression (compared row filter.field) filter.field

def matchesFrom (row : Record) (crossColumn crossColumnHit : Bool) : List Bound → Bool
  | [] => !crossColumn || crossColumnHit
  | filter :: filters =>
    if filter.crossColumn then matchesFrom row true (crossColumnHit || filter.passes row) filters
    else if filter.passes row then matchesFrom row crossColumn crossColumnHit filters
    else false

/-- `Matches`. -/
def matchesRow (filters : List (FieldFilter table)) (row : Record) : Bool :=
  matchesFrom row false false (bound filters)

end Agiru.RecordFilter
