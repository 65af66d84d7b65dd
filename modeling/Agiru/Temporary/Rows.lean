import Agiru.Library.SortedRows
import Agiru.Record.Order

/-! The rows of a temporary table.

The rows stand in the order of the primary key and a search halves them; any number of
variables share them. -/
namespace Agiru.Temporary
open SortedRows

/-- `TempTable`: the rows, and how often they changed; the count goes around. -/
structure TempTable where
  rows : List Record := []
  version : UInt64 := 0

variable {table : TableDef}

/-- The order the rows stand in. -/
abbrev byKey (table : TableDef) (a b : Record) : Ordering := ordered a b table.keyColumns

instance : Std.TransCmp (byKey table) :=
  inferInstanceAs (Std.TransCmp fun a b => ordered a b table.keyColumns)

/-- `LowerBound`. -/
def lowerBound (temp : TempTable) (table : TableDef) (record : Record) : Nat :=
  place (byKey table) temp.rows record

/-- `SameKeyAt`. -/
def sameKeyAt (temp : TempTable) (table : TableDef) («at» : Nat) (record : Record) : Bool :=
  sameAt (byKey table) temp.rows «at» record

/-- `TempInsert`. -/
def tempInsert (temp : TempTable) (table : TableDef) (record : Record) : Bool × TempTable :=
  let i := lowerBound temp table record
  if sameKeyAt temp table i record then (false, temp)
  else (true, {rows := temp.rows.insertIdx i record, version := temp.version + 1})

/-- `TempGet`: the record afterwards. -/
def tempGet (temp : TempTable) (table : TableDef) (record : Record) : Bool × Record :=
  let i := lowerBound temp table record
  if sameKeyAt temp table i record then (true, temp.rows[i]?.getD record) else (false, record)

/-- `TempModify`. -/
def tempModify (temp : TempTable) (table : TableDef) (record : Record) : Bool × TempTable :=
  let i := lowerBound temp table record
  if sameKeyAt temp table i record then
    (true, {rows := temp.rows.set i record, version := temp.version + 1})
  else (false, temp)

/-- `TempDelete`. -/
def tempDelete (temp : TempTable) (table : TableDef) (record : Record) : Bool × TempTable :=
  let i := lowerBound temp table record
  if sameKeyAt temp table i record then
    (true, {rows := temp.rows.eraseIdx i, version := temp.version + 1})
  else (false, temp)

/-- The loop of `TempDeleteAll`: the row at the index goes, or the index goes on. Each
turn leaves one row less to look at. -/
def deleteFrom (selected : Record → Bool) (rows : List Record) (index removed : Nat) :
    Nat → List Record × Nat
  | 0 => (rows, removed)
  | left + 1 =>
    match rows[index]? with
    | none => (rows, removed)
    | some row =>
      if selected row then deleteFrom selected (rows.eraseIdx index) index (removed + 1) left
      else deleteFrom selected rows (index + 1) removed left

/-- `TempDeleteAll`: how many rows went. -/
def tempDeleteAll (temp : TempTable) (state : RecordState table) : Nat × TempTable :=
  let (rows, removed) :=
    deleteFrom (RecordFilter.matchesRow state.filters) temp.rows 0 0 temp.rows.length
  (removed, {rows, version := if removed ≠ 0 then temp.version + 1 else temp.version})

/-! ### Variables that share rows -/

structure Sharing (table : TableDef) (ι : Type) where
  temp : TempTable
  var : ι → Variable table

/-- A call through a variable, or what else a program makes of its fields and of its
state. -/
inductive Op (table : TableDef) (ι : Type)
  | insert (i : ι)
  | get (i : ι)
  | modify (i : ι)
  | delete (i : ι)
  | deleteAll (i : ι)
  | assign (i : ι) (record : Record)
  | select (i : ι) (state : RecordState table)

inductive Answer
  | found (b : Bool)
  | removed (rows : Nat)
  | none
  deriving DecidableEq

variable {ι : Type} [DecidableEq ι]

namespace Sharing

def record (s : Sharing table ι) (i : ι) : Record := (s.var i).record

def load (s : Sharing table ι) (i : ι) (record : Record) : Sharing table ι :=
  {s with var := Function.update s.var i {s.var i with record}}

def step : Op table ι → Sharing table ι → Answer × Sharing table ι
  | .insert i, s =>
    let (ok, temp) := tempInsert s.temp table (s.record i)
    (.found ok, {s with temp})
  | .get i, s =>
    let (ok, record) := tempGet s.temp table (s.record i)
    (.found ok, s.load i record)
  | .modify i, s =>
    let (ok, temp) := tempModify s.temp table (s.record i)
    (.found ok, {s with temp})
  | .delete i, s =>
    let (ok, temp) := tempDelete s.temp table (s.record i)
    (.found ok, {s with temp})
  | .deleteAll i, s =>
    let (removed, temp) := tempDeleteAll s.temp (s.var i).state
    (.removed removed, {s with temp})
  | .assign i record, s => (.none, s.load i record)
  | .select i state, s =>
    (.none, {s with var := Function.update s.var i {s.var i with state}})

def run (s : Sharing table ι) : List (Op table ι) → Sharing table ι
  | [] => s
  | op :: ops => (step op s).2.run ops

end Sharing

/-- A table of two integers, keyed by the first. -/
def items : TableDef where
  name := Bytes.ascii "Item"
  caption := Bytes.ascii "Item"
  fields :=
    [{no := 1, name := Bytes.ascii "No", caption := [], type := .integer},
      {no := 2, name := Bytes.ascii "Rank", caption := [], type := .integer}]
  keys := [{fields := [1]}]
  sorted := by decide
  keyed := by decide
  numbered := by decide

def item (no rank : Int32) : Record := fun field => .integer (if field = 1 then no else rank)

/-! ### What each call does to increasing rows -/

section Cases
variable {temp : TempTable} (h : Increasing (byKey table) temp.rows) (record : Record)
include h

theorem tempInsert_cases :
    (∃ before row after, Found (byKey table) temp.rows record before row after ∧
        tempInsert temp table record = (false, temp)) ∨
      ∃ before after, Missing (byKey table) temp.rows record before after ∧
        tempInsert temp table record = (true, ⟨before ++ record :: after, temp.version + 1⟩) := by
  rcases place_cases h record with ⟨before, row, after, hf⟩ | ⟨before, after, hm⟩
  · refine .inl ⟨before, row, after, hf, ?_⟩
    simp only [tempInsert, lowerBound, sameKeyAt, hf.sameAt, if_true]
  · refine .inr ⟨before, after, hm, ?_⟩
    simp [tempInsert, lowerBound, sameKeyAt, hm.sameAt, hm.insertIdx]

theorem tempGet_cases :
    (∃ before row after, Found (byKey table) temp.rows record before row after ∧
        tempGet temp table record = (true, row)) ∨
      ∃ before after, Missing (byKey table) temp.rows record before after ∧
        tempGet temp table record = (false, record) := by
  rcases place_cases h record with ⟨before, row, after, hf⟩ | ⟨before, after, hm⟩
  · refine .inl ⟨before, row, after, hf, ?_⟩
    simp [tempGet, lowerBound, sameKeyAt, hf.sameAt, hf.getElem]
  · refine .inr ⟨before, after, hm, ?_⟩
    simp [tempGet, lowerBound, sameKeyAt, hm.sameAt]

theorem tempModify_cases :
    (∃ before row after, Found (byKey table) temp.rows record before row after ∧
        tempModify temp table record = (true, ⟨before ++ record :: after, temp.version + 1⟩)) ∨
      ∃ before after, Missing (byKey table) temp.rows record before after ∧
        tempModify temp table record = (false, temp) := by
  rcases place_cases h record with ⟨before, row, after, hf⟩ | ⟨before, after, hm⟩
  · refine .inl ⟨before, row, after, hf, ?_⟩
    simp [tempModify, lowerBound, sameKeyAt, hf.sameAt, hf.set]
  · refine .inr ⟨before, after, hm, ?_⟩
    simp [tempModify, lowerBound, sameKeyAt, hm.sameAt]

theorem tempDelete_cases :
    (∃ before row after, Found (byKey table) temp.rows record before row after ∧
        tempDelete temp table record = (true, ⟨before ++ after, temp.version + 1⟩)) ∨
      ∃ before after, Missing (byKey table) temp.rows record before after ∧
        tempDelete temp table record = (false, temp) := by
  rcases place_cases h record with ⟨before, row, after, hf⟩ | ⟨before, after, hm⟩
  · refine .inl ⟨before, row, after, hf, ?_⟩
    simp [tempDelete, lowerBound, sameKeyAt, hf.sameAt, hf.eraseIdx]
  · refine .inr ⟨before, after, hm, ?_⟩
    simp [tempDelete, lowerBound, sameKeyAt, hm.sameAt]

end Cases

/-- The loop keeps what it has passed and filters what it has not. -/
theorem deleteFrom_eq (selected : Record → Bool) (kept : List Record) {rest : List Record}
    (removed : Nat) {left : Nat} (hleft : rest.length ≤ left) :
    deleteFrom selected (kept ++ rest) kept.length removed left =
      (kept ++ rest.filter fun row => !selected row, removed + rest.countP selected) := by
  induction left generalizing kept rest removed with
  | zero =>
    have hnil : rest = [] := List.length_eq_zero_iff.mp (by omega)
    simp [deleteFrom, hnil]
  | succ left ih =>
    cases rest with
    | nil => simp [deleteFrom]
    | cons row rest =>
      have hleft : rest.length ≤ left := by simpa using hleft
      have hrow : (kept ++ row :: rest)[kept.length]? = some row := by simp
      rw [deleteFrom, hrow]
      dsimp only
      cases hsel : selected row with
      | true =>
        have herase : (kept ++ row :: rest).eraseIdx kept.length = kept ++ rest := by
          simp [List.eraseIdx_append_of_length_le]
        rw [if_pos rfl, herase, ih kept _ hleft]
        simp [hsel, Nat.add_assoc, Nat.add_comm]
      | false =>
        have hgo := ih (kept ++ [row]) removed hleft
        simp only [List.append_assoc, List.singleton_append, List.length_append, List.length_singleton] at hgo
        rw [if_neg (by simp), hgo]
        simp [hsel]

theorem tempDeleteAll_eq (temp : TempTable) (state : RecordState table) :
    tempDeleteAll temp state =
      let selected := RecordFilter.matchesRow state.filters
      (temp.rows.countP selected,
        ⟨temp.rows.filter fun row => !selected row,
          if temp.rows.countP selected ≠ 0 then temp.version + 1 else temp.version⟩) := by
  have h := deleteFrom_eq (RecordFilter.matchesRow state.filters) [] 0
    (Nat.le_refl temp.rows.length)
  simp only [List.nil_append, List.length_nil, Nat.zero_add] at h
  rw [tempDeleteAll, h]

end Agiru.Temporary
