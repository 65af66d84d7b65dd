import Agiru.Temporary.Find

/-! Navigation on a database record.

A selection is `SELECT … WHERE … ORDER BY` over the table's rows. `FindSet` opens a cursor
that only goes forward; `Next` steps it, and opens another from the record's own fields
where none is open or the other direction is wanted. -/
namespace Agiru.Database
open SortedRows Temporary Bytes

variable {table : TableDef}

/-- The rows a cursor has not stepped to, and its direction. -/
structure Cursor where
  rows : List Record
  backwards : Bool

/-- A record variable with the cursor it has open. -/
structure DatabaseVariable (table : TableDef) extends Variable table where
  cursor : Option Cursor := none

/-- The rows a condition holds of, in an order or backwards. -/
def select (rows : List Record) (condition : Record → Bool) (order : Record → Record → Ordering)
    (backwards : Bool) : List Record :=
  stableSort (if backwards then fun a b => order b a else order) (rows.filter condition)

namespace DatabaseVariable

variable (v : DatabaseVariable table)

def order : Record → Record → Ordering := walkOrder v.state.key v.state.ascending

/-- `Select`, and what a seek adds to it. -/
def selects (seek : Record → Bool) (row : Record) : Bool :=
  picked v.state v.state.filters row && seek row

/-- The cursor closed and the position lost. -/
def lost : DatabaseVariable table :=
  {v with state := {v.state with positioned := false}, cursor := none}

/-- On a row, with a cursor or none. -/
def onRow (row : Record) (cursor : Option Cursor) : DatabaseVariable table where
  record := row
  state := {v.state with positioned := true}
  cursor

end DatabaseVariable

/-- `RuntimeFindSet`. -/
def runtimeFindSet (rows : List Record) (v : DatabaseVariable table) :
    Bool × DatabaseVariable table :=
  match select rows (v.selects fun _ => true) v.order false with
  | [] => (false, v.lost)
  | row :: rest => (true, v.onRow row (some ⟨rest, false⟩))

/-- What a character of `Find` seeks, and whether from the end. -/
def seek (v : DatabaseVariable table) (step : UInt8) : Option ((Record → Bool) × Bool) :=
  if step = Ch.plus then some (fun _ => true, true)
  else if step = Ch.equals then some (fun row => v.order row v.record = .eq, false)
  else if step = Ch.greater then some (fun row => v.order row v.record = .gt, false)
  else if step = Ch.less then some (fun row => v.order row v.record = .lt, true)
  else none

/-- The characters of `Find`, tried in order until one lands on a row. -/
def findFrom (rows : List Record) (which : Bytes) (v : DatabaseVariable table) :
    Bytes → Except NavigationError Bool × DatabaseVariable table
  | [] => (.ok false, v)
  | step :: steps =>
    if (step = Ch.minus ∨ step = Ch.plus) ∧ which.length ≠ 1 then (.error (.alone which), v)
    else if step = Ch.minus then
      let (found, v) := runtimeFindSet rows v
      (.ok found, v)
    else
      match seek v.lost step with
      | none => (.error (.undeclared step), v.lost)
      | some (sought, backwards) =>
        match (select rows (v.selects sought) v.order backwards).head? with
        | some row => (.ok true, v.onRow row none)
        | none => findFrom rows which v.lost steps

/-- `RuntimeFind`. -/
def runtimeFind (rows : List Record) (v : DatabaseVariable table) (which : Bytes) :
    Except NavigationError Bool × DatabaseVariable table :=
  let which := if which = [] then [Ch.equals] else which
  findFrom rows which v which

/-- The cursor `Next` steps: the open one, or one from the record on. -/
def cursorFor (rows : List Record) (v : DatabaseVariable table) (backwards : Bool) : Cursor :=
  let sought (row : Record) : Bool := v.order row v.record = if backwards then .lt else .gt
  let fresh : Cursor := ⟨select rows (v.selects sought) v.order backwards, backwards⟩
  match v.cursor with
  | some cursor => if cursor.backwards = backwards then cursor else fresh
  | none => fresh

/-- The loop of `RuntimeNext`: the rows left, the row stepped to last, and how many steps
went. -/
def stepFrom (rows : List Record) (last : Option Record) (moved : Nat) :
    Nat → List Record × Option Record × Nat
  | 0 => (rows, last, moved)
  | count + 1 =>
    match rows with
    | [] => ([], last, moved)
    | row :: rows => stepFrom rows (some row) (moved + 1) count

/-- `RuntimeNext`. -/
def runtimeNext (rows : List Record) (v : DatabaseVariable table) (steps : Int) :
    Int × DatabaseVariable table :=
  if steps = 0 then (0, v)
  else if !v.state.positioned then (0, v)
  else
    let backwards : Bool := steps < 0
    let cursor := cursorFor rows v backwards
    let (left, last, moved) := stepFrom cursor.rows none 0 steps.natAbs
    (if backwards then -moved else moved,
      {v with record := last.getD v.record, cursor := some ⟨left, backwards⟩})

/-- A record with the primary key of another. -/
def withKey (table : TableDef) (record key : Record) : Record :=
  fun no => if no ∈ table.primaryKey then key no else record no

/-- `RuntimeGet`, of a record whose key is assigned. -/
def runtimeGet (rows : List Record) (v : DatabaseVariable table) :
    Except NavigationError Bool × DatabaseVariable table :=
  if table.keys = [] then (.error .noKey, v)
  else
    match rows.find? fun row => byKey table row v.record = .eq with
    | none => (.ok false, v)
    | some row => (.ok true, v.onRow row none)

/-- `TakePosition`, of a database record. -/
def takePosition (v : DatabaseVariable table) (key : Record) : DatabaseVariable table where
  record := withKey table v.record key
  state := {v.state with viewDirty := true, positioned := true}

end Agiru.Database

namespace Agiru.Temporary

variable {table : TableDef}

/-- `TakePosition`, of a temporary record. -/
def takePosition (v : Variable table) (key : Record) : Variable table where
  record := Database.withKey table v.record key
  state := {v.state with viewDirty := true, positioned := true}

end Agiru.Temporary

/-! ### One run of navigating calls on a temporary and on a database record over the same
rows.

`Agrees` says when a call does the same to both: where no `Next` follows a `Get` that
moved the record or gave a position to the database record alone, and the row ahead is
not one of the record's own key. -/
namespace Agiru.Database
open SortedRows Temporary Bytes

variable {table : TableDef}

/-- A navigating call. `get` and `setPosition` take the primary key of a record. -/
inductive Call
  | findSet
  | find (which : Bytes)
  | get (key : Record)
  | setPosition (key : Record)
  | next (steps : Int)

inductive Answer
  | found (b : Bool)
  | moved (steps : Int)
  | raised (e : NavigationError)
  | done
  deriving DecidableEq

def Answer.ofFind : Except NavigationError Bool → Answer
  | .ok b => .found b
  | .error e => .raised e

def tempCall (temp : TempTable) : Call → Variable table → Answer × Variable table
  | .findSet, v =>
    let (found, v) := tempFindSet temp v
    (.found found, v)
  | .find which, v =>
    let (found, v) := tempFind temp v which
    (.ofFind found, v)
  | .get key, v =>
    let (found, record) := tempGet temp table (withKey table v.record key)
    (.found found, {v with record})
  | .setPosition key, v => (.done, Temporary.takePosition v key)
  | .next steps, v =>
    let (moved, v) := tempNext temp v steps
    (.moved moved, v)

def databaseCall (rows : List Record) : Call → DatabaseVariable table → Answer × DatabaseVariable table
  | .findSet, v =>
    let (found, v) := runtimeFindSet rows v
    (.found found, v)
  | .find which, v =>
    let (found, v) := runtimeFind rows v which
    (.ofFind found, v)
  | .get key, v =>
    let (found, v) := runtimeGet rows {v with record := withKey table v.record key}
    (.ofFind found, v)
  | .setPosition key, v => (.done, takePosition v key)
  | .next steps, v =>
    let (moved, v) := runtimeNext rows v steps
    (.moved moved, v)

/-- What each call answers, and the record it leaves. -/
def tempTrace (temp : TempTable) (v : Variable table) : List Call → List (Answer × Record)
  | [] => []
  | call :: calls =>
    let (answer, v) := tempCall temp call v
    (answer, v.record) :: tempTrace temp v calls

def databaseTrace (rows : List Record) (v : DatabaseVariable table) :
    List Call → List (Answer × Record)
  | [] => []
  | call :: calls =>
    let (answer, v) := databaseCall rows call v
    (answer, v.record) :: databaseTrace rows v calls

/-- Whether a call gives the variable a place, or takes it. -/
def Call.moves : Call → Bool
  | .get _ => false
  | .next steps => steps ≠ 0
  | _ => true

def Answer.raises : Answer → Bool
  | .raised _ => true
  | _ => false

/-- The characters of `Find` that may stand before others. -/
def relative (c : UInt8) : Bool := c = Ch.equals || c = Ch.greater || c = Ch.less

/-- When a call does the same to both. `left` is the record as the last call that moved
left it. -/
def Agrees (temp : TempTable) (left : Record) (t : Variable table) (d : DatabaseVariable table) :
    Call → Prop
  | .findSet | .setPosition _ => True
  -- an undeclared character raises on a temporary record only where there is a row
  | .find which => chosen t.state temp.rows ≠ [] ∨
    ∀ c ∈ (which.dropWhile relative).head?, c = Ch.minus ∨ c = Ch.plus
  | .get _ => table.keys ≠ []
  | .next steps => steps = 0 ∨
    -- no `Get` has found a row while the variable stood nowhere
    (t.state.positioned = d.state.positioned ∧ (t.state.positioned = true →
      -- no `Get` has moved the record
      walkOrder t.state.key t.state.ascending t.record left = .eq ∧
      -- and the row that follows is not one of the record's own key
      ∀ row ∈ (rowsAfter t.state temp.rows t.record).head?, byKey table row t.record ≠ .eq))

instance (temp : TempTable) (left : Record) (t : Variable table) (d : DatabaseVariable table) :
    (call : Call) → Decidable (Agrees temp left t d call)
  | .findSet | .setPosition _ => inferInstanceAs (Decidable True)
  | .find _ => inferInstanceAs (Decidable (_ ∨ _))
  | .get _ => inferInstanceAs (Decidable (_ ≠ _))
  | .next _ => inferInstanceAs (Decidable (_ ∨ _ ∧ (_ → _ ∧ _)))

/-- When all calls of a run do. -/
def AllAgree (temp : TempTable) (rows : List Record) (left : Record) (t : Variable table)
    (d : DatabaseVariable table) : List Call → Prop
  | [] => True
  | call :: calls =>
    let after := tempCall temp call t
    Agrees temp left t d call ∧
      AllAgree temp rows (if call.moves ∧ !after.1.raises then after.2.record else left) after.2
        (databaseCall rows call d).2 calls

instance decideAllAgree (temp : TempTable) (rows : List Record) : (left : Record) →
    (t : Variable table) → (d : DatabaseVariable table) → (calls : List Call) →
    Decidable (AllAgree temp rows left t d calls)
  | _, _, _, [] => inferInstanceAs (Decidable True)
  | left, t, d, call :: calls =>
    @instDecidableAnd (Agrees temp left t d call) _ inferInstance
      (decideAllAgree temp rows _ _ _ calls)

/-! ### What a database selects -/

/-- Rows in which a key stands once at most. -/
def Distinct (table : TableDef) (rows : List Record) : Prop :=
  rows.Pairwise fun a b => byKey table a b ≠ .eq

section Select
variable {rows : List Record} {temp : TempTable} {v : DatabaseVariable table}
  (hrows : Distinct table rows) (hperm : rows.Perm temp.rows)
include hrows hperm

theorem increasing_of_distinct (state : RecordState table) :
    Increasing (walkOrder state.key state.ascending) (chosen state temp.rows) := by
  refine increasing_stableSort ?_
  have htemp : Distinct table temp.rows := (hperm.pairwise_iff fun hne heq =>
    hne (Std.OrientedCmp.eq_comm.mp heq)).mp hrows
  exact (List.Pairwise.sublist List.filter_sublist htemp).imp fun hne heq =>
    hne (RecordOrder.ordered_of_compare heq)

/-- The rows a seek selects are those of the whole selection that it is true of. -/
theorem select_eq (sought : Record → Bool) (backwards : Bool) :
    select rows (v.selects sought) v.order backwards =
      if backwards then ((chosen v.state temp.rows).filter sought).reverse
      else (chosen v.state temp.rows).filter sought := by
  have hchosen := increasing_of_distinct hrows hperm v.state
  have hfilter : (rows.filter (v.selects sought)).Perm
      ((chosen v.state temp.rows).filter sought) := by
    have hsort : (chosen v.state temp.rows).Perm (temp.rows.filter (picked v.state v.state.filters)) :=
      List.perm_insertionSort _ _
    have hboth : rows.filter (v.selects sought) =
        (rows.filter (picked v.state v.state.filters)).filter sought := by
      rw [List.filter_filter]
      exact List.filter_congr fun row _ => Bool.and_comm _ _
    rw [hboth]
    exact ((hperm.filter _).filter _).trans (hsort.symm.filter _)
  have hdistinct : (rows.filter (v.selects sought)).Pairwise fun a b => v.order a b ≠ .eq :=
    (List.Pairwise.sublist List.filter_sublist hrows).imp fun hne heq =>
      hne (RecordOrder.ordered_of_compare heq)
  have htrans : Std.TransCmp v.order := inferInstanceAs (Std.TransCmp (walkOrder _ _))
  have hpart : Increasing v.order ((chosen v.state temp.rows).filter sought) :=
    hchosen.sublist List.filter_sublist
  cases backwards with
  | false =>
    simp only [select, Bool.false_eq_true, if_false]
    exact eq_of_perm (increasing_stableSort hdistinct) hpart
      ((List.perm_insertionSort _ _).trans hfilter)
  | true =>
    have hback : Std.TransCmp fun a b => v.order b a := Std.TransCmp.opposite
    have hsorted : Increasing (fun a b => v.order b a) (stableSort (fun a b => v.order b a)
        (rows.filter (v.selects sought))) :=
      increasing_stableSort (hdistinct.imp fun hne heq => hne (Std.OrientedCmp.eq_comm.mp heq))
    simp only [select, if_true]
    exact eq_of_perm hsorted (List.pairwise_reverse.mpr hpart)
      ((List.perm_insertionSort _ _).trans (hfilter.trans (List.reverse_perm _).symm))

end Select

end Agiru.Database
