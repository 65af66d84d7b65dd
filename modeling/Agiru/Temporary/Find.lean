import Agiru.Temporary.Walk

/-! `Find` on a temporary record.

Each character asks for rows of the selection, and the nearest of them is found. A
character that is not declared raises, but not where the selection is empty. -/
namespace Agiru.Temporary
open SortedRows Bytes

variable {table : TableDef}

/-- What a navigating call raises. -/
inductive NavigationError
  | alone (which : Bytes)
  | undeclared (step : UInt8)
  | noKey
  deriving DecidableEq

def NavigationError.text : NavigationError → Bytes
  | .alone which =>
    ascii "Record.Find: '-' and '+' can only be used alone, and this one reads \"" ++ which ++
      [Ch.doubleQuote]
  | .undeclared step =>
    ascii "Record.Find: '" ++ [step] ++
      ascii "' is not one of the characters record-find-method.md declares"
  | .noKey => ascii "the table declares no key"

/-- `FindStep`: the position of the view it lands on. -/
def findStep (temp : TempTable) (state : RecordState table) (record : Record) (step : UInt8) :
    Except NavigationError (Option Nat) :=
  let by_ (i : Nat) := walkOrder state.key state.ascending (temp.row i) record
  if state.view = [] then .ok none
  else if step = Ch.minus then .ok (some 0)
  else if step = Ch.plus then .ok (some (state.view.length - 1))
  else if step = Ch.equals then .ok (state.view.findIdx? fun i => by_ i = .eq)
  else if step = Ch.greater then .ok (state.view.findIdx? fun i => by_ i = .gt)
  else if step = Ch.less then
    .ok ((state.view.reverse.findIdx? fun i => by_ i = .lt).map fun i => state.view.length - 1 - i)
  else .error (.undeclared step)

/-- The characters of `Find`, tried in order until one lands on a row. -/
def findFrom (temp : TempTable) (which : Bytes) (v : Variable table) :
    Bytes → Except NavigationError Bool × Variable table
  | [] => (.ok false, v)
  | step :: steps =>
    if (step = Ch.minus ∨ step = Ch.plus) ∧ which.length ≠ 1 then (.error (.alone which), v)
    else
      let state := snapshot temp {v.state with positioned := false}
      match findStep temp state v.record step with
      | .error e => (.error e, {v with state})
      | .ok (some i) => (.ok true, land temp state i)
      | .ok none => findFrom temp which {v with state} steps

/-- `TempFind`. -/
def tempFind (temp : TempTable) (v : Variable table) (which : Bytes) :
    Except NavigationError Bool × Variable table :=
  let which := if which = [] then [Ch.equals] else which
  findFrom temp which v which

/-! ### The rows a character asks for -/

/-- The rows a character of `Find` asks for, the one it lands on first. -/
def asked (chosenBy : RecordState table) (rows : List Record) (record : Record) (step : UInt8) :
    Option (List Record) :=
  let by_ := walkOrder chosenBy.key chosenBy.ascending
  let rows := chosen chosenBy rows
  if step = Ch.minus then some rows
  else if step = Ch.plus then some rows.reverse
  else if step = Ch.equals then some (rows.filter fun row => by_ row record = .eq)
  else if step = Ch.greater then some (following by_ rows record)
  else if step = Ch.less then some (preceding by_ rows record)
  else none

/-- A position of a list points to what is wanted of it, if anything is. -/
structure Points {α : Type} (xs : List α) (i : Option Nat) (wanted : Option α) : Prop where
  there : i.bind (fun i => xs[i]?) = wanted
  nowhere : wanted = none → i = none

theorem points_findIdx {α : Type} (p : α → Bool) (xs : List α) :
    Points xs (xs.findIdx? p) (xs.filter p).head? := by
  induction xs with
  | nil => exact ⟨rfl, fun _ => rfl⟩
  | cons x xs ih =>
    rw [List.filter_cons, List.findIdx?_cons]
    cases hp : p x with
    | true => exact ⟨rfl, fun h => by simp at h⟩
    | false =>
      simp only [Bool.false_eq_true, if_false]
      refine ⟨?_, fun hnone => by rw [ih.nowhere hnone]; rfl⟩
      rw [← ih.there]
      cases xs.findIdx? p <;> rfl

theorem asked_nil {chosenBy : RecordState table} {rows all : List Record} {record : Record}
    {step : UInt8} (hnil : chosen chosenBy all = []) (h : asked chosenBy all record step = some rows) :
    rows = [] := by
  simp only [asked, hnil, following, preceding, List.filter_nil, List.reverse_nil] at h
  repeat' split at h
  all_goals simp_all

section Step
variable {temp : TempTable} {state : RecordState table} {record : Record} {step : UInt8}
  {rows : List Record} (hview : state.view.map temp.row = chosen state temp.rows)
include hview

/-- Searching the view lands on the first row that passes. -/
theorem points_view (p : Record → Bool) :
    Points (chosen state temp.rows) (state.view.findIdx? fun i => p (temp.row i))
      ((chosen state temp.rows).filter p).head? := by
  have hmap : (state.view.findIdx? fun i => p (temp.row i)) =
      (chosen state temp.rows).findIdx? p := by
    rw [← hview, List.findIdx?_map]
    rfl
  rw [hmap]
  exact points_findIdx p _

/-- And so from the view's end. -/
theorem points_view_reverse (p : Record → Bool) :
    Points (chosen state temp.rows)
      ((state.view.reverse.findIdx? fun i => p (temp.row i)).map fun i => state.view.length - 1 - i)
      ((chosen state temp.rows).filter p).reverse.head? := by
  have hmap : (state.view.reverse.findIdx? fun i => p (temp.row i)) =
      (chosen state temp.rows).reverse.findIdx? p := by
    rw [← hview, ← List.map_reverse, List.findIdx?_map]
    rfl
  have hlength : state.view.length = (chosen state temp.rows).length := by
    rw [← hview, List.length_map]
  have hpoints := points_findIdx p (chosen state temp.rows).reverse
  rw [hmap, ← List.filter_reverse]
  refine ⟨?_, fun hnone => by rw [hpoints.nowhere hnone]; rfl⟩
  rw [← hpoints.there]
  cases hidx : (chosen state temp.rows).reverse.findIdx? p with
  | none => rfl
  | some i =>
    have hlt : i < (chosen state temp.rows).length := by
      simpa using (List.findIdx?_eq_some_iff_getElem.mp hidx).1
    simp only [Option.map_some, Option.bind_some, hlength, List.getElem?_reverse hlt]

/-- A declared character lands on the first row it asks for. -/
theorem findStep_asked (hrows : asked state temp.rows record step = some rows) :
    ∃ i, findStep temp state record step = .ok i ∧ Points (chosen state temp.rows) i rows.head? := by
  by_cases hnil : state.view = []
  · rw [asked_nil (by rw [← hview, hnil]; rfl) hrows]
    exact ⟨none, by simp [findStep, hnil], rfl, fun _ => rfl⟩
  have hlength : state.view.length = (chosen state temp.rows).length := by
    rw [← hview, List.length_map]
  have hpos : 0 < state.view.length := List.length_pos_iff.mpr hnil
  unfold asked at hrows
  unfold findStep
  dsimp only at hrows ⊢
  rw [if_neg hnil]
  by_cases hminus : step = Ch.minus
  · rw [if_pos hminus] at hrows ⊢
    cases hrows
    refine ⟨some 0, rfl, List.head?_eq_getElem?.symm, fun hnone => ?_⟩
    rw [List.head?_eq_none_iff] at hnone
    rw [hnone, List.length_nil] at hlength
    omega
  rw [if_neg hminus] at hrows ⊢
  by_cases hplus : step = Ch.plus
  · rw [if_pos hplus] at hrows ⊢
    cases hrows
    refine ⟨_, rfl, ?_, fun hnone => ?_⟩
    · rw [List.head?_reverse, List.getLast?_eq_getElem?, hlength]
      rfl
    · rw [List.head?_eq_none_iff, List.reverse_eq_nil_iff] at hnone
      rw [hnone, List.length_nil] at hlength
      omega
  rw [if_neg hplus] at hrows ⊢
  by_cases hequals : step = Ch.equals
  · rw [if_pos hequals] at hrows ⊢
    cases hrows
    exact ⟨_, rfl, points_view hview fun row => walkOrder state.key state.ascending row record = .eq⟩
  rw [if_neg hequals] at hrows ⊢
  by_cases hgreater : step = Ch.greater
  · rw [if_pos hgreater] at hrows ⊢
    cases hrows
    exact ⟨_, rfl, points_view hview fun row => walkOrder state.key state.ascending row record = .gt⟩
  rw [if_neg hgreater] at hrows ⊢
  by_cases hless : step = Ch.less
  · rw [if_pos hless] at hrows ⊢
    cases hrows
    exact ⟨_, rfl, points_view_reverse hview fun row => walkOrder state.key state.ascending row record = .lt⟩
  · rw [if_neg hless] at hrows
    cases hrows

/-- Any other character raises where there is a row. -/
theorem findStep_undeclared (hstep : asked state temp.rows record step = none) :
    findStep temp state record step =
      if chosen state temp.rows = [] then .ok none else .error (.undeclared step) := by
  have hnil : state.view = [] ↔ chosen state temp.rows = [] := by
    rw [← hview, List.map_eq_nil_iff]
  unfold asked at hstep
  dsimp only at hstep
  repeat' split at hstep
  all_goals simp_all [findStep]

end Step

end Agiru.Temporary
