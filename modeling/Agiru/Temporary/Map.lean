import Agiru.Temporary.Rows
import Mathlib.Data.Set.Card

/-! Temporary rows are a map.

`Store` is a map from keys to rows and the variables that read and write it. From no
rows, over any run, every call through any variable answers as the map does and leaves
the rows of the map; a call that fails changes nothing, and one that changes the rows
moves the version on by one. -/
namespace Agiru.Temporary
open SortedRows

variable {table : TableDef} {ι : Type} [DecidableEq ι]

/-- A primary key: what each of its fields sorts by. -/
abbrev Key := List (Int × Bytes)

def keyOf (table : TableDef) (record : Record) : Key :=
  table.keyColumns.map fun field => (sortNumber field record, sortText field record)

/-- A map from keys to rows, and the variables. -/
structure Store (table : TableDef) (ι : Type) where
  rows : Key → Option Record
  var : ι → Variable table

namespace Store

def record (s : Store table ι) (i : ι) : Record := (s.var i).record

def key (s : Store table ι) (i : ι) : Key := keyOf table (s.record i)

def load (s : Store table ι) (i : ι) (record : Record) : Store table ι :=
  {s with var := Function.update s.var i {s.var i with record}}

def write (s : Store table ι) (i : ι) (row : Option Record) : Store table ι :=
  {s with rows := Function.update s.rows (s.key i) row}

/-- Whether a variable's filters select the row of a key. -/
def selects (s : Store table ι) (i : ι) (key : Key) : Prop :=
  ∃ row, s.rows key = some row ∧ RecordFilter.matchesRow (s.var i).state.filters row = true

noncomputable def step : Op table ι → Store table ι → Answer × Store table ι
  | .insert i, s =>
    match s.rows (s.key i) with
    | some _ => (.found false, s)
    | none => (.found true, s.write i (some (s.record i)))
  | .get i, s =>
    match s.rows (s.key i) with
    | some row => (.found true, s.load i row)
    | none => (.found false, s)
  | .modify i, s =>
    match s.rows (s.key i) with
    | some _ => (.found true, s.write i (some (s.record i)))
    | none => (.found false, s)
  | .delete i, s =>
    match s.rows (s.key i) with
    | some _ => (.found true, s.write i none)
    | none => (.found false, s)
  | .deleteAll i, s =>
    (.removed {key | s.selects i key}.ncard,
      {s with rows := fun key => (s.rows key).filter fun row =>
        !RecordFilter.matchesRow (s.var i).state.filters row})
  | .assign i record, s => (.none, s.load i record)
  | .select i state, s =>
    (.none, {s with var := Function.update s.var i {s.var i with state}})

noncomputable def run (s : Store table ι) : List (Op table ι) → Store table ι
  | [] => s
  | op :: ops => (step op s).2.run ops

end Store

/-! ### The rows are the map -/

/-- Two records compare equal in the key's order when they have the same key. -/
theorem byKey_eq_iff (a b : Record) : byKey table a b = .eq ↔ keyOf table a = keyOf table b := by
  have hfield : ∀ field, compareField a b field = .eq ↔
      (sortNumber field a, sortText field a) = (sortNumber field b, sortText field b) := by
    intro field
    rw [show compareField a b field = _ from congrFun (congrFun (compareField_eq field) a) b]
    simp [compareLex, compareOn, Ordering.then_eq_eq]
  rw [byKey, ordered_eq_iff, keyOf, keyOf, List.map_inj_left]
  exact forall₂_congr fun field _ => hfield field

/-- A key stands in increasing rows once. -/
theorem eq_of_byKey {rows : List Record} (h : Increasing (byKey table) rows) {a b : Record}
    (ha : a ∈ rows) (hb : b ∈ rows) (hab : byKey table a b = .eq) : a = b :=
  eq_of_key byKey_eq_iff h ha hb ((byKey_eq_iff a b).mp hab)

namespace Sharing

/-- What the rows and the variables stand for. -/
def store (s : Sharing table ι) : Store table ι where
  rows := toMap (keyOf table) s.temp.rows
  var := s.var

/-- What holds of a call: it keeps the rows increasing and does what the map does. -/
structure Refines (s : Sharing table ι) (op : Op table ι) : Prop where
  increasing : Increasing (byKey table) (step op s).2.temp.rows
  answer : (step op s).1 = (Store.step op s.store).1
  store : (step op s).2.store = (Store.step op s.store).2
  failed : (step op s).1 = .found false → (step op s).2 = s
  version : (step op s).2.temp.rows ≠ s.temp.rows → (step op s).2.temp.version = s.temp.version + 1
  kept : (step op s).2.temp = s.temp ∨ (step op s).2.temp.version = s.temp.version + 1

variable {s : Sharing table ι}

theorem refines_of_failed {op : Op table ι} (h : Increasing (byKey table) s.temp.rows)
    (hstep : step op s = (.found false, s))
    (hstore : Store.step op s.store = (.found false, s.store)) : s.Refines op :=
  ⟨by rwa [hstep], by rw [hstep, hstore], by rw [hstep, hstore], fun _ => by rw [hstep],
    by simp [hstep], .inl (by rw [hstep])⟩

theorem refines_of_written {op : Op table ι} {i : ι} {rows : List Record} {row : Option Record}
    (h : Increasing (byKey table) rows)
    (hstep : step op s = (.found true, {s with temp := ⟨rows, s.temp.version + 1⟩}))
    (hstore : Store.step op s.store = (.found true, s.store.write i row))
    (hrows : toMap (keyOf table) rows =
      Function.update (toMap (keyOf table) s.temp.rows) (keyOf table (s.record i)) row) :
    s.Refines op := by
  refine ⟨by rwa [hstep], by rw [hstep, hstore], ?_, by simp [hstep], by simp [hstep],
    .inr (by rw [hstep])⟩
  rw [hstep, hstore]
  simp only [store, Store.write, hrows]
  rfl

theorem refines_insert (h : Increasing (byKey table) s.temp.rows) (i : ι) :
    s.Refines (.insert i) := by
  rcases tempInsert_cases h (s.record i) with
    ⟨before, row, after, hf, heq⟩ | ⟨before, after, hm, heq⟩
  · have hmap : s.store.rows (s.store.key i) = some row := hf.toMap byKey_eq_iff h
    exact refines_of_failed h (by simp [step, heq]) (by simp [Store.step, hmap])
  · have hmap : s.store.rows (s.store.key i) = none := hm.toMap byKey_eq_iff h
    have hrows := h
    rw [hm.split] at hrows
    have hwrite := toMap_between byKey_eq_iff hrows hm.smaller hm.greater
    rw [← hm.split] at hwrite
    exact refines_of_written (increasing_between hrows hm.smaller hm.greater)
      (by simp [step, heq]) (by simp only [Store.step, hmap]; rfl) hwrite

theorem refines_get (h : Increasing (byKey table) s.temp.rows) (i : ι) : s.Refines (.get i) := by
  rcases tempGet_cases h (s.record i) with
    ⟨before, row, after, hf, heq⟩ | ⟨before, after, hm, heq⟩
  · have hstep : step (.get i) s = (.found true, s.load i row) := by simp [step, heq]
    have hmap : s.store.rows (s.store.key i) = some row := hf.toMap byKey_eq_iff h
    have hstore : Store.step (.get i) s.store = (.found true, (s.load i row).store) := by
      simp only [Store.step, hmap]
      rfl
    exact ⟨by rwa [hstep], by rw [hstep, hstore], by rw [hstep, hstore], by simp [hstep],
      fun hne => absurd (by rw [hstep]; rfl) hne, .inl (by rw [hstep]; rfl)⟩
  · have hmap : s.store.rows (s.store.key i) = none := hm.toMap byKey_eq_iff h
    have hload : s.load i (s.record i) = s := by simp [load, record]
    exact refines_of_failed h (by simp [step, heq, hload]) (by simp [Store.step, hmap])

theorem refines_modify (h : Increasing (byKey table) s.temp.rows) (i : ι) :
    s.Refines (.modify i) := by
  rcases tempModify_cases h (s.record i) with
    ⟨before, row, after, hf, heq⟩ | ⟨before, after, hm, heq⟩
  · have hmap : s.store.rows (s.store.key i) = some row := hf.toMap byKey_eq_iff h
    have hrest := hf.increasing h
    have hwrite := toMap_between byKey_eq_iff hrest hf.smaller hf.greater
    rw [hf.toMap_erase byKey_eq_iff h, Function.update_idem] at hwrite
    exact refines_of_written (increasing_between hrest hf.smaller hf.greater)
      (by simp [step, heq]) (by simp only [Store.step, hmap]; rfl) hwrite
  · have hmap : s.store.rows (s.store.key i) = none := hm.toMap byKey_eq_iff h
    exact refines_of_failed h (by simp [step, heq]) (by simp [Store.step, hmap])

theorem refines_delete (h : Increasing (byKey table) s.temp.rows) (i : ι) :
    s.Refines (.delete i) := by
  rcases tempDelete_cases h (s.record i) with
    ⟨before, row, after, hf, heq⟩ | ⟨before, after, hm, heq⟩
  · have hmap : s.store.rows (s.store.key i) = some row := hf.toMap byKey_eq_iff h
    exact refines_of_written (hf.increasing h) (by simp [step, heq])
      (by simp only [Store.step, hmap]) (hf.toMap_erase byKey_eq_iff h)
  · have hmap : s.store.rows (s.store.key i) = none := hm.toMap byKey_eq_iff h
    exact refines_of_failed h (by simp [step, heq]) (by simp [Store.step, hmap])

omit [DecidableEq ι] in
/-- The keys a variable selects are those of the rows it selects. -/
theorem selects_count (h : Increasing (byKey table) s.temp.rows) (i : ι) :
    {key | s.store.selects i key}.ncard =
      s.temp.rows.countP (RecordFilter.matchesRow (s.var i).state.filters) := by
  let selected := s.temp.rows.filter (RecordFilter.matchesRow (s.var i).state.filters)
  have hset : {key | s.store.selects i key} = ↑(selected.map (keyOf table)).toFinset := by
    ext key
    simp only [Set.mem_ofPred_eq, Store.selects, store, toMap_eq_some byKey_eq_iff h,
      List.coe_toFinset, List.mem_map, List.mem_filter, selected]
    constructor
    · rintro ⟨row, ⟨hmem, hkey⟩, hsel⟩
      exact ⟨row, ⟨hmem, hsel⟩, hkey⟩
    · rintro ⟨row, ⟨hmem, hsel⟩, hkey⟩
      exact ⟨row, ⟨hmem, hkey⟩, hsel⟩
  have hnodup : (selected.map (keyOf table)).Nodup := by
    refine List.pairwise_map.mpr ((h.sublist List.filter_sublist).imp fun hlt heq => ?_)
    rw [(byKey_eq_iff _ _).mpr heq] at hlt
    cases hlt
  rw [hset, Set.ncard_coe_finset, List.toFinset_card_of_nodup hnodup, List.length_map, List.countP_eq_length_filter]

theorem refines_deleteAll (h : Increasing (byKey table) s.temp.rows) (i : ι) :
    s.Refines (.deleteAll i) := by
  have heq := tempDeleteAll_eq s.temp (s.var i).state
  dsimp only at heq
  have hmap := toMap_filter byKey_eq_iff h fun row =>
    !RecordFilter.matchesRow (s.var i).state.filters row
  have hkept : (step (.deleteAll i) s).2.temp = s.temp ∨
      (step (.deleteAll i) s).2.temp.version = s.temp.version + 1 := by
    simp only [step, heq]
    split
    · exact .inr rfl
    · next hnone =>
      left
      rw [List.filter_eq_self.mpr]
      intro row hrow
      simpa using List.countP_eq_zero.mp (not_not.mp hnone) row hrow
  refine ⟨?_, ?_, ?_, by simp [step], ?_, hkept⟩
  · simp only [step, heq]
    exact h.sublist List.filter_sublist
  · simp only [step, Store.step, heq, selects_count h]
  · simp only [step, Store.step, heq, store, hmap]
  · exact fun hne => hkept.resolve_left fun hsame => hne (congrArg TempTable.rows hsame)

theorem refines (h : Increasing (byKey table) s.temp.rows) (op : Op table ι) : s.Refines op := by
  cases op with
  | insert i => exact refines_insert h i
  | get i => exact refines_get h i
  | modify i => exact refines_modify h i
  | delete i => exact refines_delete h i
  | deleteAll i => exact refines_deleteAll h i
  | assign | select => exact ⟨h, rfl, rfl, by simp [step], fun hne => absurd rfl hne, .inl rfl⟩

theorem increasing_run (h : Increasing (byKey table) s.temp.rows) (ops : List (Op table ι)) :
    Increasing (byKey table) (s.run ops).temp.rows := by
  induction ops generalizing s with
  | nil => exact h
  | cons op ops ih => exact ih (refines h op).increasing

/-- How many calls of a run move the version. -/
def changes (s : Sharing table ι) : List (Op table ι) → Nat
  | [] => 0
  | op :: ops => (if (step op s).2.temp.version = s.temp.version then 0 else 1) + (step op s).2.changes ops

/-- The version counts the changes, and goes around; without a change the rows are the same. -/
theorem version_run (h : Increasing (byKey table) s.temp.rows) (ops : List (Op table ι)) :
    (s.run ops).temp.version = s.temp.version + UInt64.ofNat (s.changes ops) ∧
      (s.changes ops = 0 → (s.run ops).temp = s.temp) := by
  induction ops generalizing s with
  | nil => exact ⟨by simp [run, changes], fun _ => rfl⟩
  | cons op ops ih =>
    have hop := refines h op
    obtain ⟨hversion, hsame⟩ := ih hop.increasing
    rw [run, changes]
    rcases hop.kept with hkept | hkept
    · rw [hkept] at hversion hsame
      rw [if_pos (congrArg TempTable.version hkept), Nat.zero_add]
      exact ⟨hversion, hsame⟩
    · rw [if_neg (by simp [hkept])]
      refine ⟨?_, by omega⟩
      rw [hversion, hkept, UInt64.ofNat_add, UInt64.add_assoc]
      rfl

end Sharing

/-- One item inserted and deleted, so many times. -/
def turns (n : Nat) : List (Op items Unit) := (List.replicate n [.insert (), .delete ()]).flatten

variable {table : TableDef}

/-- `RuntimeRename` of a temporary record: `record` carries the new key, `before` the old one. -/
def runtimeRename (temp : TempTable) (table : TableDef) (record before : Record) : Bool × TempTable :=
  let (deleted, temp) := tempDelete temp table before
  if !deleted then (false, temp) else tempInsert temp table record

/-- The rows as a map. -/
def rowsOf (temp : TempTable) (table : TableDef) : Key → Option Record := toMap (keyOf table) temp.rows

/-- A rename whole or not at all. -/
structure RenamesWhole (temp : TempTable) (table : TableDef) (record before : Record) : Prop where
  refused : (runtimeRename temp table record before).1 = false ↔
    rowsOf temp table (keyOf table before) = none ∨
      (keyOf table record ≠ keyOf table before ∧ rowsOf temp table (keyOf table record) ≠ none)
  unchanged : (runtimeRename temp table record before).1 = false →
    (runtimeRename temp table record before).2 = temp
  renamed : (runtimeRename temp table record before).1 = true →
    rowsOf (runtimeRename temp table record before).2 table =
      Function.update (Function.update (rowsOf temp table) (keyOf table before) none)
        (keyOf table record) (some record)

theorem runtimeRename_missing {temp : TempTable} {record before : Record}
    (hdelete : tempDelete temp table before = (false, temp)) :
    runtimeRename temp table record before = (false, temp) := by
  rw [runtimeRename, hdelete]
  rfl

theorem runtimeRename_deleted {temp rest : TempTable} {record before : Record}
    (hdelete : tempDelete temp table before = (true, rest)) :
    runtimeRename temp table record before = tempInsert rest table record := by
  rw [runtimeRename, hdelete]
  rfl

section
variable {temp : TempTable} (h : Increasing (byKey table) temp.rows)
include h

/-- What a deletion does to the map. -/
theorem tempDelete_rows (before : Record) :
    (rowsOf temp table (keyOf table before) = none ∧ tempDelete temp table before = (false, temp)) ∨
      ∃ rest : TempTable, rowsOf temp table (keyOf table before) ≠ none ∧
        tempDelete temp table before = (true, rest) ∧ Increasing (byKey table) rest.rows ∧ rest ≠ temp ∧
        rowsOf rest table = Function.update (rowsOf temp table) (keyOf table before) none := by
  rcases tempDelete_cases h before with hfound | hmissing
  · obtain ⟨rows, row, after, hf, heq⟩ := hfound
    refine .inr ⟨_, ?_, heq, hf.increasing h, ?_, hf.toMap_erase byKey_eq_iff h⟩
    · rw [rowsOf, hf.toMap byKey_eq_iff h]
      exact Option.some_ne_none row
    · intro hsame
      exact absurd (congrArg TempTable.version hsame) (by simp)
  · obtain ⟨rows, after, hm, heq⟩ := hmissing
    exact .inl ⟨hm.toMap byKey_eq_iff h, heq⟩

/-- What an insertion does to the map. -/
theorem tempInsert_rows (record : Record) :
    (rowsOf temp table (keyOf table record) ≠ none ∧ tempInsert temp table record = (false, temp)) ∨
      ∃ rest : TempTable, rowsOf temp table (keyOf table record) = none ∧
        tempInsert temp table record = (true, rest) ∧ Increasing (byKey table) rest.rows ∧
        rowsOf rest table = Function.update (rowsOf temp table) (keyOf table record) (some record) := by
  rcases tempInsert_cases h record with hfound | hmissing
  · obtain ⟨rows, row, after, hf, heq⟩ := hfound
    refine .inl ⟨?_, heq⟩
    rw [rowsOf, hf.toMap byKey_eq_iff h]
    exact Option.some_ne_none row
  · obtain ⟨rows, after, hm, heq⟩ := hmissing
    have hrows := h
    rw [hm.split] at hrows
    have hmap := toMap_between byKey_eq_iff hrows hm.smaller hm.greater
    rw [← hm.split] at hmap
    exact .inr ⟨_, hm.toMap byKey_eq_iff h, heq, increasing_between hrows hm.smaller hm.greater, hmap⟩

/-- **When a rename is whole.** It is, but where a row carries the old key and another row the new one:
there the row of the old key is gone. -/
theorem rename_is_whole (record before : Record) :
    RenamesWhole temp table record before ↔
      ¬ (rowsOf temp table (keyOf table before) ≠ none ∧ keyOf table record ≠ keyOf table before ∧
        rowsOf temp table (keyOf table record) ≠ none) := by
  rcases tempDelete_rows h before with ⟨hnone, hdelete⟩ | ⟨rest, hsome, hdelete, hrest, hne, hmap⟩
  · have heq := @runtimeRename_missing _ _ record _ hdelete
    refine iff_of_true ⟨?_, ?_, ?_⟩ fun hboth => hboth.1 hnone
    · rw [heq]
      exact iff_of_true rfl (.inl hnone)
    · rw [heq]
      exact fun _ => rfl
    · rw [heq]
      exact fun htrue => absurd htrue Bool.false_ne_true
  · have hother : keyOf table record ≠ keyOf table before →
        rowsOf rest table (keyOf table record) = rowsOf temp table (keyOf table record) := by
      intro hkey
      rw [hmap, Function.update_of_ne hkey]
    rcases tempInsert_rows hrest record with ⟨hcarried, hinsert⟩ | ⟨last, hfree, hinsert, -, hlast⟩
    · have heq := (runtimeRename_deleted hdelete).trans hinsert
      have hkey : keyOf table record ≠ keyOf table before := by
        intro hsame
        rw [hmap, hsame, Function.update_self] at hcarried
        exact hcarried rfl
      apply iff_of_false
      · intro hwhole
        have hsame := hwhole.unchanged (by rw [heq])
        rw [heq] at hsame
        exact hne hsame
      · rw [← hother hkey]
        exact fun hnot => hnot ⟨hsome, hkey, hcarried⟩
    · have heq := (runtimeRename_deleted hdelete).trans hinsert
      have hnot : ¬ (keyOf table record ≠ keyOf table before ∧ rowsOf temp table (keyOf table record) ≠ none) := by
        intro hboth
        rw [← hother hboth.1] at hboth
        exact hboth.2 hfree
      refine iff_of_true ⟨?_, ?_, ?_⟩ fun hboth => hnot hboth.2
      · rw [heq]
        exact iff_of_false (fun htrue => Bool.noConfusion htrue) fun hor => hor.elim hsome hnot
      · rw [heq]
        exact fun hfalse => Bool.noConfusion hfalse
      · rw [heq, hlast, hmap]
        exact fun _ => rfl

end

theorem rename_is_whole_of_items : RenamesWhole ⟨[item 1 0, item 3 0], 2⟩ items (item 2 0) (item 1 0) := by
  have h : Increasing (byKey items) (TempTable.mk [item 1 0, item 3 0] 2).rows :=
    .cons (fun row hrow => List.mem_singleton.mp hrow ▸ by decide) (List.pairwise_singleton _ _)
  refine (rename_is_whole h (item 2 0) (item 1 0)).mpr fun hboth => hboth.2.2 ?_
  exact List.find?_eq_none.mpr (by decide)

/-- Renaming the first item to the second loses it. -/
theorem rename_loses :
    ¬ ∀ (table : TableDef) (temp : TempTable) (record before : Record),
      Increasing (byKey table) temp.rows → RenamesWhole temp table record before := by
  intro h
  have hrows : Increasing (byKey items) (TempTable.mk [item 1 0, item 2 0] 2).rows :=
    .cons (fun row hrow => List.mem_singleton.mp hrow ▸ by decide) (List.pairwise_singleton _ _)
  have hwhole := h items ⟨[item 1 0, item 2 0], 2⟩ (item 2 0) (item 1 0) hrows
  have hlength : (runtimeRename ⟨[item 1 0, item 2 0], 2⟩ items (item 2 0) (item 1 0)).2.rows.length = 1 := by
    decide
  rw [hwhole.unchanged (by decide)] at hlength
  exact absurd hlength (by decide)

end Agiru.Temporary
