import Agiru.Marks.Fields

/-! Whether marks identify rows: in memory by the mark's text, to the database by its clause.

`marks_identify` says of which keys they do, for records whose key texts are free of the separator. -/
namespace Agiru.Marks
open Bytes Agiru.Filter Agiru.Joined

variable {table : TableDef}

/-- `Mark(true)` on one record after the other. -/
def markAll (state : RecordState table) (records : List Record) : RecordState table :=
  records.foldl (fun state record => setMark state record true) state

/-- Equal primary keys, by `CompareField`. -/
def sameKey (table : TableDef) (r s : Record) : Bool := ordered r s table.keyColumns = .eq

/-- The columns of a row. -/
def rowColumns (collation : Bytes → Bytes → Ordering) (row : Record) (field : FieldDef) : Filter.Column :=
  keyColumn collation field (row field.no)

/-- After the marks, a row's mark is among them, and the row is selected, just where a marked record has its
primary key; in whatever order the marks are gone through, and whatever else the query binds. -/
def Identifies (collation : Bytes → Bytes → Ordering) (table : TableDef) (marked : List Record) (row : Record) :
    Prop :=
  let state : RecordState table := markAll {} marked
  (markKey table row ∈ state.marks ↔ ∃ r ∈ marked, sameKey table r row = true) ∧
    ∀ marks : List Bytes, (∀ mark, mark ∈ marks ↔ mark ∈ state.marks) → ∀ before after : List Bytes,
      let clause := narrowMarks table marks (before.length + 1)
      selects (rowColumns collation row) (before ++ (clause.2 ++ after)) clause.1 =
        some (marked.any fun r => sameKey table r row)

/-- Records whose key fields hold certain values. -/
def Within (table : TableDef) (values : FieldDef → Value → Prop) (record : Record) : Prop :=
  ∀ field ∈ table.keyColumns, values field (record field.no)

/-- The first of several key fields is not shown as a blank. -/
def Leading (table : TableDef) (values : FieldDef → Value → Prop) : Prop :=
  table.primaryKey.length = 1 ∨
    ∀ first, table.keyColumns.head? = some first → ∀ v, values first v → valueText first v ≠ []

/-! ### The texts of a key -/

/-- The texts of a record's key. -/
def keyTexts (table : TableDef) (record : Record) : List Bytes :=
  table.keyColumns.map fun field => valueText field (record field.no)

theorem markKey_eq (table : TableDef) (record : Record) :
    markKey table record = joined Ch.unitSeparator (keyTexts table record) := by
  rw [markKey, joined, keyTexts, List.foldl_map]
  rfl

theorem mem_markAll {state : RecordState table} {records : List Record} {mark : Bytes} :
    mark ∈ (markAll state records).marks ↔ mark ∈ state.marks ∨ ∃ r ∈ records, markKey table r = mark := by
  have hset : ∀ (state : RecordState table) record, (setMark state record true).marks =
      insert (markKey table record) state.marks := by
    intro state record
    unfold setMark
    simp only [if_true]
    split <;> rfl
  induction records generalizing state with
  | nil => simp [markAll]
  | cons record records ih =>
    have hstep := @ih (setMark state record true)
    rw [hset, Finset.mem_insert] at hstep
    rw [markAll, List.foldl_cons]
    refine hstep.trans ?_
    rw [List.exists_mem_cons_iff, ← or_assoc, eq_comm, or_comm (a := mark ∈ state.marks)]

theorem sameKey_iff {r s : Record} :
    sameKey table r s = true ↔ ∀ field ∈ table.keyColumns, equalIn field (r field.no) (s field.no) = true := by
  rw [sameKey, decide_eq_true_iff, ordered_eq_iff]
  apply forall₂_congr
  intro field _
  rw [equalIn, decide_eq_true_iff]
  rfl

theorem sameKey_self (r : Record) : sameKey table r r = true := by
  rw [sameKey_iff]
  intro field _
  rw [equalIn, decide_eq_true_iff]
  exact @Std.ReflCmp.compare_self _ (fun a b => compareField a b field) _ _

/-! ### What a mark asks, field by field -/

theorem mapM_eq_some {α β : Type} {f : α → Option β} {l : List α} {found : List β} :
    l.mapM f = some found ↔ l.map f = found.map some := by
  induction l generalizing found with
  | nil => cases found <;> simp
  | cons a l ih =>
    rw [List.mapM_cons, List.map_cons]
    cases hf : f a with
    | none => cases found <;> simp
    | some b =>
      cases found with
      | nil =>
        cases l.mapM f <;> simp
      | cons c found =>
        rw [List.map_cons, List.cons.injEq, ← ih, Option.some.injEq]
        cases l.mapM f <;> simp

theorem equalAll_texts (columns : FieldDef → Filter.Column) (fields : List FieldDef) (text : FieldDef → Bytes) :
    equalAll columns fields (fields.map text) =
      (fields.mapM fun field => equals (columns field) field (text field)).map (·.all id) := by
  have hzip : fields.zip (fields.map text) = fields.map fun field => (field, text field) := by
    rw [List.zip_map_right, List.zip_eq_zipWith]
    simp
  rw [equalAll, hzip, List.mapM_map]
  rfl

/-- Where each column says of its text whether it has it, all of them do. -/
theorem equalAll_some {columns : FieldDef → Filter.Column} {fields : List FieldDef} {text : FieldDef → Bytes}
    {has : FieldDef → Bool} (h : ∀ field ∈ fields, equals (columns field) field (text field) = some (has field)) :
    equalAll columns fields (fields.map text) = some (fields.all has) := by
  have hall : fields.mapM (fun field => equals (columns field) field (text field)) = some (fields.map has) := by
    rw [mapM_eq_some, List.map_map]
    exact List.map_congr_left h
  rw [equalAll_texts, hall, Option.map_some, List.all_map]
  rfl

theorem equals_of_equalAll {columns : FieldDef → Filter.Column} {fields : List FieldDef} {text : FieldDef → Bytes}
    {b : Bool} (h : equalAll columns fields (fields.map text) = some b) :
    ∀ field ∈ fields, ∃ c, equals (columns field) field (text field) = some c ∧ (b = true → c = true) := by
  rw [equalAll_texts, Option.map_eq_some_iff] at h
  obtain ⟨found, hfound, hall⟩ := h
  rw [mapM_eq_some] at hfound
  intro field hfield
  have hmem : equals (columns field) field (text field) ∈ found.map some := by
    rw [← hfound]
    exact List.mem_map_of_mem hfield
  obtain ⟨c, hc, heq⟩ := List.mem_map.mp hmem
  refine ⟨c, heq.symm, ?_⟩
  rintro rfl
  exact List.all_eq_true.mp hall c hc

section
variable {collation : Bytes → Bytes → Ordering} {values : FieldDef → Value → Prop} {r s row : Record}

theorem keyColumns_ne_nil (hkey : table.primaryKey ≠ []) : table.keyColumns ≠ [] := by
  intro hnil
  rw [← table.keyColumns_no, hnil] at hkey
  exact hkey rfl

theorem keyTexts_ne_nil (hkey : table.primaryKey ≠ []) (r : Record) : keyTexts table r ≠ [] := by
  intro hnil
  exact keyColumns_ne_nil hkey (List.map_eq_nil_iff.mp hnil)

theorem keyTexts_length (table : TableDef) (r : Record) : (keyTexts table r).length = table.primaryKey.length := by
  rw [keyTexts, List.length_map, ← table.keyColumns_no, List.length_map]

theorem separator_not_mem (hclear : ∀ field ∈ table.keyColumns, ∀ v, values field v →
      Ch.unitSeparator ∉ valueText field v) (hr : Within table values r) :
    ∀ text ∈ keyTexts table r, Ch.unitSeparator ∉ text := by
  intro text htext
  obtain ⟨field, hfield, rfl⟩ := List.mem_map.mp htext
  exact hclear field hfield _ (hr field hfield)

/-- Marks without separators are the same, if the texts are. -/
theorem markKey_eq_iff (hclear : ∀ field ∈ table.keyColumns, ∀ v, values field v →
      Ch.unitSeparator ∉ valueText field v) (hr : Within table values r) (hs : Within table values s) :
    markKey table r = markKey table s ↔
      ∀ field ∈ table.keyColumns, valueText field (r field.no) = valueText field (s field.no) := by
  rw [← List.map_inj_left (f := fun field => valueText field (r field.no)), markKey_eq, markKey_eq]
  constructor
  · exact joined_injective (separator_not_mem hclear hr) (separator_not_mem hclear hs)
      (by rw [keyTexts_length, keyTexts_length])
  · exact congrArg _

/-- A mark asks for the texts of its record, unless it lost the first of them. -/
theorem isMarked_markKey (hkey : table.primaryKey ≠ []) (hclear : ∀ field ∈ table.keyColumns, ∀ v, values field v →
      Ch.unitSeparator ∉ valueText field v) (hr : Within table values r) (columns : FieldDef → Filter.Column) :
    isMarked columns table (markKey table r) =
      if table.primaryKey.length = 1 ∨ (keyTexts table r).head? ≠ some [] then
        equalAll columns table.keyColumns (keyTexts table r)
      else some false := by
  have hne := keyTexts_ne_nil hkey r
  have hfree := separator_not_mem hclear hr
  have hlength := length_splitOn_joined hne hfree
  rw [keyTexts_length] at hlength
  unfold isMarked
  dsimp only
  rw [markKey_eq]
  by_cases hfound : table.primaryKey.length = 1 ∨ (keyTexts table r).head? ≠ some []
  · rw [if_neg (not_not.mpr (hlength.mpr hfound)), if_pos hfound]
    rw [splitOn_joined_of_length hne hfree (by rwa [keyTexts_length])]
  · rw [if_pos (mt hlength.mp hfound), if_neg hfound]

/-! ### Which keys marks identify -/

/-- One mark, and what it says of a row. -/
theorem identifies_one (h : Identifies collation table [r] row) :
    (markKey table row = markKey table r ↔ sameKey table r row = true) ∧
      isMarked (rowColumns collation row) table (markKey table r) = some (sameKey table r row) := by
  obtain ⟨hmemory, hclause⟩ := h
  have hmarks : ∀ mark, mark ∈ (markAll ({} : RecordState table) [r]).marks ↔ markKey table r = mark := by
    intro mark
    rw [mem_markAll]
    simp
  constructor
  · rw [hmarks] at hmemory
    rw [eq_comm, hmemory]
    simp
  · have hone := hclause [markKey table r] (fun mark => by rw [hmarks, List.mem_singleton, eq_comm]) [] []
    dsimp only at hone
    rw [narrowMarks_selects] at hone
    cases hmarked : isMarked (rowColumns collation row) table (markKey table r) with
    | none => rw [List.mapM_cons, hmarked] at hone; cases hone
    | some b =>
      rw [List.mapM_cons, hmarked] at hone
      simpa using hone

theorem within_update (hr : Within table values r) {field : FieldDef} (hfield : field ∈ table.keyColumns)
    {v : Value} (hv : values field v) : Within table values (Function.update r field.no v) := by
  intro other hother
  by_cases hno : other.no = field.no
  · obtain rfl := table.field_no_injective (table.keyColumns_mem hother) (table.keyColumns_mem hfield) hno
    rwa [Function.update_self]
  · rw [Function.update_of_ne hno]
    exact hr other hother

theorem leading_of_identifies (hkey : table.primaryKey ≠ []) (hr : Within table values r)
    (hclear : ∀ field ∈ table.keyColumns, ∀ v, values field v → Ch.unitSeparator ∉ valueText field v)
    (h : ∀ marked row, (∀ r ∈ marked, Within table values r) → Within table values row →
      Identifies collation table marked row) : Leading table values := by
  by_contra hleading
  rw [Leading, not_or] at hleading
  obtain ⟨hmany, hblank⟩ := hleading
  push Not at hblank
  obtain ⟨first, hfirst, v, hv, htext⟩ := hblank
  have hmem : first ∈ table.keyColumns := List.mem_of_mem_head? hfirst
  have hupdated := within_update hr hmem hv
  have hone := (identifies_one (h [_] _ (by simpa using hupdated) hupdated)).2
  have hlost : (keyTexts table (Function.update r first.no v)).head? = some [] := by
    rw [keyTexts, List.head?_map, hfirst, Option.map_some, Function.update_self, htext]
  rw [isMarked_markKey hkey hclear hupdated, if_neg (by simp [hmany, hlost]), sameKey_self] at hone
  cases hone

theorem texts_found (hleading : Leading table values) (hr : Within table values r) :
    table.primaryKey.length = 1 ∨ (keyTexts table r).head? ≠ some [] := by
  refine hleading.imp_right ?_
  intro hfirst hhead
  rw [keyTexts, List.head?_map, Option.map_eq_some_iff] at hhead
  obtain ⟨first, hsome, htext⟩ := hhead
  exact hfirst first hsome _ (hr first (List.mem_of_mem_head? hsome)) htext

theorem agrees_of_identifies (hkey : table.primaryKey ≠ []) (hr : Within table values r)
    (hclear : ∀ field ∈ table.keyColumns, ∀ v, values field v → Ch.unitSeparator ∉ valueText field v)
    (h : ∀ marked row, (∀ r ∈ marked, Within table values r) → Within table values row →
      Identifies collation table marked row) {field : FieldDef} (hfield : field ∈ table.keyColumns) {v w : Value}
    (hv : values field v) (hw : values field w) : Agrees collation field v w := by
  have hleading := leading_of_identifies hkey hr hclear h
  have hrv := within_update hr hfield hv
  have hrw := within_update hr hfield hw
  have hothers : ∀ other ∈ table.keyColumns, other ≠ field → ∀ x : Value,
      Function.update r field.no x other.no = r other.no := by
    intro other hother hne x
    apply Function.update_of_ne
    exact fun hno => hne (table.field_no_injective (table.keyColumns_mem hother) (table.keyColumns_mem hfield) hno)
  have hsame : sameKey table (Function.update r field.no v) (Function.update r field.no w) =
      equalIn field v w := by
    rw [Bool.eq_iff_iff, sameKey_iff]
    constructor
    · intro hall
      have := hall field hfield
      rwa [Function.update_self, Function.update_self] at this
    · intro hequal other hother
      by_cases hne : other = field
      · rwa [hne, Function.update_self, Function.update_self]
      · rw [hothers other hother hne, hothers other hother hne]
        exact sameKey_iff.mp (sameKey_self r) other hother
  have hself := (identifies_one (h [r] r (by simpa using hr) hr)).2
  rw [isMarked_markKey hkey hclear hr, if_pos (texts_found hleading hr), sameKey_self] at hself
  obtain ⟨hmemory, hone⟩ := identifies_one (h [_] _ (by simpa using hrv) hrw)
  rw [isMarked_markKey hkey hclear hrv, if_pos (texts_found hleading hrv), hsame] at hone
  constructor
  · rw [hsame, eq_comm, markKey_eq_iff hclear hrv hrw] at hmemory
    rw [← hmemory]
    constructor
    · intro htext other hother
      by_cases hne : other = field
      · rwa [hne, Function.update_self, Function.update_self]
      · rw [hothers other hother hne, hothers other hother hne]
    · intro hall
      have := hall field hfield
      rwa [Function.update_self, Function.update_self] at this
  · have hcolumn : ∀ other, rowColumns collation (Function.update r field.no w) other =
        keyColumn collation other (Function.update r field.no w other.no) := fun _ => rfl
    obtain ⟨c, hc, -⟩ := equals_of_equalAll hone field hfield
    have hhas : ∀ other ∈ table.keyColumns, equals (rowColumns collation (Function.update r field.no w) other)
        other
        (valueText other (Function.update r field.no v other.no)) = some (if other = field then c else true) := by
      intro other hother
      by_cases hne : other = field
      · rw [if_pos hne, hne]
        exact hc
      · obtain ⟨d, hd, htrue⟩ := equals_of_equalAll hself other hother
        rw [if_neg hne, hcolumn, hothers other hother hne, hothers other hother hne, ← htrue rfl]
        exact hd
    have hall := equalAll_some hhas
    rw [← keyTexts, hone] at hall
    have hc' : (table.keyColumns.all fun other => if other = field then c else true) = c := by
      rw [Bool.eq_iff_iff, List.all_eq_true]
      constructor
      · intro hevery
        simpa using hevery field hfield
      · intro htrue other _
        split
        · exact htrue
        · rfl
    rw [hcolumn, Function.update_self, Function.update_self] at hc
    rw [hc, Option.some.inj hall, hc']

theorem identifies_of_agrees (hkey : table.primaryKey ≠ [])
    (hclear : ∀ field ∈ table.keyColumns, ∀ v, values field v → Ch.unitSeparator ∉ valueText field v)
    (hleading : Leading table values)
    (hagrees : ∀ field ∈ table.keyColumns, ∀ v w, values field v → values field w → Agrees collation field v w)
    {marked : List Record} (hmarked : ∀ r ∈ marked, Within table values r) (hrow : Within table values row) :
    Identifies collation table marked row := by
  have hsame : ∀ r ∈ marked, (markKey table r = markKey table row ↔ sameKey table r row = true) := by
    intro r hr
    rw [markKey_eq_iff hclear (hmarked r hr) hrow, sameKey_iff]
    apply forall₂_congr
    intro field hfield
    exact (hagrees field hfield _ _ (hmarked r hr field hfield) (hrow field hfield)).1
  have hasks : ∀ r ∈ marked, isMarked (rowColumns collation row) table (markKey table r) =
      some (sameKey table r row) := by
    intro r hr
    have hequal : (table.keyColumns.all fun field => equalIn field (r field.no) (row field.no)) =
        sameKey table r row := by
      rw [Bool.eq_iff_iff, List.all_eq_true, sameKey_iff]
    rw [isMarked_markKey hkey hclear (hmarked r hr), if_pos (texts_found hleading (hmarked r hr)), keyTexts, ← hequal]
    apply equalAll_some
    intro field hfield
    exact (hagrees field hfield _ _ (hmarked r hr field hfield) (hrow field hfield)).2
  constructor
  · rw [mem_markAll]
    simp only [Finset.notMem_empty, false_or]
    apply exists_congr
    intro r
    exact and_congr_right fun hr => hsame r hr
  · intro marks hmarks before after
    dsimp only
    rw [narrowMarks_selects]
    have hof : ∀ mark ∈ marks, ∃ r ∈ marked, markKey table r = mark := by
      intro mark hmark
      have hin := mem_markAll.mp ((hmarks mark).mp hmark)
      simpa using hin
    have hall : marks.mapM (isMarked (rowColumns collation row) table) =
        some (marks.map fun mark => decide (isMarked (rowColumns collation row) table mark = some true)) := by
      rw [mapM_eq_some, List.map_map]
      apply List.map_congr_left
      intro mark hmark
      obtain ⟨r, hr, rfl⟩ := hof mark hmark
      rw [Function.comp_apply, hasks r hr]
      cases sameKey table r row <;> rfl
    rw [hall, Option.map_some]
    congr 1
    rw [Bool.eq_iff_iff, List.any_map, List.any_eq_true, List.any_eq_true]
    constructor
    · rintro ⟨mark, hmark, htrue⟩
      obtain ⟨r, hr, rfl⟩ := hof mark hmark
      have hselected : isMarked (rowColumns collation row) table (markKey table r) =
          some true := by simpa using htrue
      rw [hasks r hr] at hselected
      exact ⟨r, hr, Option.some.inj hselected⟩
    · rintro ⟨r, hr, htrue⟩
      refine ⟨markKey table r, (hmarks _).mpr (mem_markAll.mpr (.inr ⟨r, hr, rfl⟩)), ?_⟩
      simp [hasks r hr, htrue]

/-- **Marks identify the rows of a table, in memory and to the database, just where the first of several key
fields is never blank and the values of each key field fit.** -/
theorem marks_identify (values : FieldDef → Value → Prop) (hkey : table.primaryKey ≠ [])
    (hrefl : ∀ a, collation a a = .eq) (hcollation : ∀ a b, collation a b = .eq → sameText a b = true)
    (hheld : ∀ field ∈ table.keyColumns, Held field (values field))
    (hclear : ∀ field ∈ table.keyColumns, ∀ v, values field v → Ch.unitSeparator ∉ valueText field v)
    (hr : Within table values r) :
    (∀ marked row, (∀ r ∈ marked, Within table values r) → Within table values row →
      Identifies collation table marked row) ↔
        Leading table values ∧ ∀ field ∈ table.keyColumns, Fits collation field (values field) := by
  constructor
  · intro h
    refine ⟨leading_of_identifies hkey hr hclear h, ?_⟩
    intro field hfield
    refine (agrees_iff_fits hrefl hcollation (hheld field hfield)).mp ?_
    intro v w hv hw
    exact agrees_of_identifies hkey hr hclear h hfield hv hw
  · rintro ⟨hleading, hfits⟩ marked row hmarked hrow
    refine identifies_of_agrees hkey hclear hleading ?_ hmarked hrow
    intro field hfield
    exact (agrees_iff_fits hrefl hcollation (hheld field hfield)).mpr (hfits field hfield)

end

/-! ### Marks that are lost -/

/-- A table of two fields. -/
def pairs (first second : FieldType) (key : List FieldNo) (h : ∀ no ∈ key, no = 1 ∨ no = 2) : TableDef where
  name := ascii "Pair"
  caption := ascii "Pair"
  fields := [{ no := 1, name := ascii "First", caption := ascii "First", type := first, length := 20 },
    { no := 2, name := ascii "Second", caption := ascii "Second", type := second, length := 20 }]
  keys := [{ fields := key }]
  sorted := by simp
  keyed := by
    intro k hk no hno
    rw [List.mem_singleton.mp hk] at hno
    rcases h no hno with rfl | rfl <;> simp
  numbered := by simp

def pair (first second : Value) : Record := fun no => if no = 1 then first else second

/-- The whole numbers. -/
def Whole (_ : FieldDef) (v : Value) : Prop := isOf .integer v = true

theorem marks_identify_integers :
    (∀ marked row, (∀ r ∈ marked, Within (pairs .integer .text [1] (by decide)) Whole r) →
      Within (pairs .integer .text [1] (by decide)) Whole row →
        Identifies ignoringCase (pairs .integer .text [1] (by decide)) marked row) ↔
      Leading (pairs .integer .text [1] (by decide)) Whole ∧
        ∀ field ∈ (pairs .integer .text [1] (by decide)).keyColumns, Fits ignoringCase field (Whole field) := by
  have htype : ∀ field ∈ (pairs .integer .text [1] (by decide)).keyColumns, field.type = .integer := by
    decide
  apply marks_identify (r := fun _ => .integer 0)
  · decide
  · exact fun a => (ignoringCase_eq a a).mpr (decide_eq_true rfl)
  · exact fun a b => (ignoringCase_eq a b).mp
  · intro field hfield
    refine ⟨?_, ?_, ?_⟩
    · intro v hv
      rw [htype field hfield]
      exact hv
    · intro v _ hcode
      rw [htype field hfield] at hcode
      cases hcode
    · intro v _ hformula
      rw [htype field hfield] at hformula
      cases hformula
  · intro field hfield v _
    rw [valueText, fieldText, htype field hfield]
    exact Storage.RecordId.separator_not_mem_intText _
  · intro field _
    rfl

/-- A blank first field loses the mark to the database, and a decimal of one value in other places has
another mark. -/
theorem marks_lost :
    ¬ Identifies ignoringCase (pairs .code .code [1, 2] (by decide)) [pair (.code []) (.code (ascii "A"))]
        (pair (.code []) (.code (ascii "A"))) ∧
      ¬ Identifies ignoringCase (pairs .decimal .text [1] (by decide))
        [pair (.decimal ⟨1, 0, false, by decide, by decide, by decide⟩) (.text [])]
        (pair (.decimal ⟨10, 1, false, by decide, by decide, by decide⟩) (.text [])) := by
  constructor
  · intro h
    have hlost : isMarked (rowColumns ignoringCase (pair (.code []) (.code (ascii "A"))))
        (pairs .code .code [1, 2] (by decide)) (ascii "A") = some false := by
      decide +kernel
    have hone := (identifies_one h).2
    rw [sameKey_self] at hone
    cases hlost.symm.trans hone
  · intro h
    have hmemory := (identifies_one h).1
    revert hmemory
    decide +kernel

end Agiru.Marks
