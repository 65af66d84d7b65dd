import Agiru.Database.Calls

/-! A temporary and a database record over the same rows, call by call.

`Twins` relates the two by the record that the last call that moves left them on: the
temporary one stands on it in its view, and an open cursor holds the rows ahead of it.
Every call that agrees answers alike on both and keeps them twins. -/
namespace Agiru.Database
open SortedRows Temporary Bytes

variable {table : TableDef}

/-- The same filters, sort fields and marks. -/
structure SameSelection (a b : RecordState table) : Prop where
  filters : b.filters = a.filters
  key : b.key = a.key
  ascending : b.ascending = a.ascending
  marks : b.marks = a.marks
  markedOnly : b.markedOnly = a.markedOnly

/-- A state whose view is that of a selection in the present rows. -/
structure Viewing (sel : RecordState table) (temp : TempTable) (state : RecordState table) :
    Prop where
  same : SameSelection sel state
  clean : state.viewDirty = false
  version : state.viewVersion = temp.version
  filters : state.viewFilters = sel.filters
  key : state.viewKey = sel.key
  ascending : state.viewAscending = sel.ascending
  view : state.view.map temp.row = chosen sel temp.rows

/-- The rows ahead of a record in a selection, the nearest first. -/
def rowsAhead (sel : RecordState table) (rows : List Record) (record : Record) (backwards : Bool) :
    List Record :=
  let by_ := walkOrder sel.key sel.ascending
  if backwards then preceding by_ (chosen sel rows) record else following by_ (chosen sel rows) record

/-- Two variables that the last call that moves left on the same record. -/
structure Twins (sel : RecordState table) (temp : TempTable) (left : Record) (t : Variable table)
    (d : DatabaseVariable table) : Prop where
  record : d.record = t.record
  temporary : SameSelection sel t.state
  database : SameSelection sel d.state
  positioned : t.state.positioned = true → d.state.positioned = true
  viewing : t.state.viewDirty = false → Viewing sel temp t.state
  seat : t.state.viewDirty = false → t.state.positioned = true →
    ∀ row, (chosen sel temp.rows)[t.state.at]? = some row →
      walkOrder sel.key sel.ascending row left = .eq
  cursor : ∀ c, d.cursor = some c → c.rows = rowsAhead sel temp.rows left c.backwards
  closed : d.state.positioned = false → d.cursor = none

theorem SameSelection.chosen {a b : RecordState table} (h : SameSelection a b) (rows : List Record) :
    chosen b rows = chosen a rows := by
  have hpicked : picked b b.filters = picked a a.filters := by
    funext row
    rw [picked, picked, h.filters, h.marks, h.markedOnly]
  rw [Temporary.chosen, Temporary.chosen, hpicked, h.key, h.ascending]

section View
variable {sel : RecordState table} {temp : TempTable} {state : RecordState table}

theorem Viewing.selection (h : Viewing sel temp state) :
    selection temp state = chosen sel temp.rows := by
  have hpicked : picked state state.viewFilters = picked sel sel.filters := by
    funext row
    rw [picked, picked, h.filters, h.same.marks, h.same.markedOnly]
  rw [Temporary.selection, chosen, hpicked, h.key, h.ascending]

/-- A snapshot views the variable's selection. -/
theorem viewing_snapshot (h : SameSelection sel state) (temp : TempTable) :
    Viewing sel temp (snapshot temp state) := by
  have hview : (snapshot temp state).view.map temp.row = chosen state temp.rows := build_view temp _
  rw [h.chosen] at hview
  exact ⟨{h with}, rfl, rfl, h.filters, h.key, h.ascending, hview⟩

theorem viewing_renewed (hsame : SameSelection sel state)
    (h : state.viewDirty = false → Viewing sel temp state) : Viewing sel temp (renewed temp state) := by
  unfold renewed
  split
  · exact viewing_snapshot hsame temp
  · next hdirty =>
    have hviewing := h (by simpa using hdirty)
    rw [if_neg (not_not.mpr hviewing.version)]
    exact hviewing

/-- A change of the position leaves what a state views. -/
theorem Viewing.moved (h : Viewing sel temp state) (i : Nat) (positioned : Bool) :
    Viewing sel temp {state with «at» := i, positioned} :=
  ⟨{h.same with}, h.clean, h.version, h.filters, h.key, h.ascending, h.view⟩

end View

section Calls
variable {sel : RecordState table} {temp : TempTable} {left : Record} {t : Variable table}
  {d : DatabaseVariable table} {state : RecordState table}

/-- Both land on a row of the selection. -/
theorem twins_landed (hview : Viewing sel temp state) (hd : SameSelection sel d.state) {i : Nat}
    {row : Record} (hi : (chosen sel temp.rows)[i]? = some row) {cursor : Option Cursor}
    (hcursor : ∀ c, cursor = some c → c.rows = rowsAhead sel temp.rows row c.backwards) :
    Twins sel temp row (land temp state i) (d.onRow row cursor) := by
  have hrow : (land temp state i).record = row :=
    land_record (hview.view.trans hview.selection.symm) (by rw [hview.selection, hi])
  refine ⟨hrow.symm, {hview.same with}, {hd with}, fun _ => rfl, fun _ => hview.moved i true,
    fun _ _ other hother => ?_, hcursor, fun hnot => by cases hnot⟩
  rw [show (land temp state i).state.at = i from rfl, hi, Option.some_inj] at hother
  rw [hother]
  exact Std.ReflCmp.compare_self

/-- Both lose their place. -/
theorem twins_lost (hview : Viewing sel temp state) (hpos : state.positioned = false)
    (hd : SameSelection sel d.state) (hrecord : d.record = t.record) (left : Record) :
    Twins sel temp left {t with state} d.lost :=
  ⟨hrecord, hview.same, {hd with}, fun hp => by simp [hpos] at hp, fun _ => hview,
    fun _ hp => by simp [hpos] at hp, fun _ hc => (by cases hc), fun _ => rfl⟩

/-- The places of a run over rows that stay: their order and their keys. -/
structure Reads (table : TableDef) (rows : List Record) (temp : TempTable) : Prop where
  distinct : Distinct table rows
  perm : rows.Perm temp.rows
  increasing : Increasing (byKey table) temp.rows

variable {rows : List Record} (hreads : Reads table rows temp)
include hreads

/-- What a database variable selects, of a selection it shares. -/
theorem select_same (hd : SameSelection sel d.state) (sought : Record → Bool) (backwards : Bool) :
    select rows (d.selects sought) d.order backwards =
      if backwards then ((chosen sel temp.rows).filter sought).reverse
      else (chosen sel temp.rows).filter sought := by
  rw [select_eq hreads.distinct hreads.perm, hd.chosen]

theorem Twins.findSet (h : Twins sel temp left t d) :
    (tempFindSet temp t).1 = (runtimeFindSet rows d).1 ∧
      Twins sel temp (tempFindSet temp t).2.record (tempFindSet temp t).2 (runtimeFindSet rows d).2 := by
  have hsame : SameSelection sel {t.state with positioned := false} := {h.temporary with}
  have hview := viewing_snapshot hsame temp
  have hselect := select_same hreads h.database (fun _ => true) false
  simp only [Bool.false_eq_true, if_false, List.filter_true] at hselect
  have hinc := increasing_of_distinct hreads.distinct hreads.perm sel
  cases hrows : chosen sel temp.rows with
  | nil =>
    have hnil : (snapshot temp {t.state with positioned := false}).view = [] := by
      simpa [hrows] using hview.view
    rw [hrows] at hselect
    have ht : tempFindSet temp t =
        (false, {t with state := snapshot temp {t.state with positioned := false}}) := by
      rw [tempFindSet]
      exact if_pos hnil
    have hd : runtimeFindSet rows d = (false, d.lost) := by rw [runtimeFindSet, hselect]
    rw [ht, hd]
    exact ⟨rfl, twins_lost hview rfl h.database h.record _⟩
  | cons row rest =>
    have hcons : (snapshot temp {t.state with positioned := false}).view ≠ [] := fun hnil => by
      simpa [hnil, hrows] using hview.view
    have ht : tempFindSet temp t =
        (true, land temp (snapshot temp {t.state with positioned := false}) 0) := by
      rw [tempFindSet]
      exact if_neg hcons
    rw [hrows] at hselect
    have hd : runtimeFindSet rows d = (true, d.onRow row (some ⟨rest, false⟩)) := by
      rw [runtimeFindSet, hselect]
    have hfirst : (chosen sel temp.rows)[0]? = some row := by rw [hrows]; rfl
    have hrow : (land temp (snapshot temp {t.state with positioned := false}) 0).record = row :=
      land_record (hview.view.trans hview.selection.symm) (by rw [hview.selection, hfirst])
    rw [ht, hd]
    refine ⟨rfl, ?_⟩
    dsimp only
    rw [hrow]
    refine twins_landed hview h.database hfirst fun c hc => ?_
    cases hc
    rw [rowsAhead, if_neg Bool.false_ne_true, (found_at hinc hfirst Std.ReflCmp.compare_self).steps.1, hrows]
    rfl

/-! ### Find -/

omit hreads in
theorem asked_same (h : SameSelection sel state) (rows : List Record) (record : Record)
    (step : UInt8) : asked state rows record step = asked sel rows record step := by
  rw [asked, asked, h.chosen, h.key, h.ascending]

omit hreads in
/-- The characters that are not declared. -/
theorem asked_eq_none {all : List Record} {record : Record} {step : UInt8} :
    asked sel all record step = none ↔ step ≠ Ch.minus ∧ step ≠ Ch.plus ∧ step ≠ Ch.equals ∧
      step ≠ Ch.greater ∧ step ≠ Ch.less := by
  unfold asked
  dsimp only
  repeat' split
  all_goals simp_all

/-- What a character seeks in a database is what it asks for. -/
theorem seek_asked (hd : SameSelection sel d.state) {step : UInt8} (hstep : step ≠ Ch.minus) :
    match asked sel temp.rows d.record step with
    | none => seek d.lost step = none
    | some wanted => ∃ sought backwards, seek d.lost step = some (sought, backwards) ∧
        select rows (d.selects sought) d.order backwards = wanted := by
  have hlost : d.lost.order = walkOrder sel.key sel.ascending := by
    rw [DatabaseVariable.order, ← hd.key, ← hd.ascending]
    rfl
  simp only [asked, seek, if_neg hstep, hlost, show d.lost.record = d.record from rfl]
  by_cases hplus : step = Ch.plus
  · simp only [if_pos hplus]
    exact ⟨_, _, rfl, by rw [select_same hreads hd]; simp⟩
  by_cases hequals : step = Ch.equals
  · simp only [if_neg hplus, if_pos hequals]
    exact ⟨_, _, rfl, by rw [select_same hreads hd]; simp⟩
  by_cases hgreater : step = Ch.greater
  · simp only [if_neg hplus, if_neg hequals, if_pos hgreater]
    exact ⟨_, _, rfl, by rw [select_same hreads hd]; simp [following]⟩
  by_cases hless : step = Ch.less
  · simp only [if_neg hplus, if_neg hequals, if_neg hgreater, if_pos hless]
    exact ⟨_, _, rfl, by rw [select_same hreads hd]; simp [preceding]⟩
  · simp only [if_neg hplus, if_neg hequals, if_neg hgreater, if_neg hless]

omit hreads in
/-- A lone minus finds what `FindSet` does. -/
theorem findFrom_minus {which : Bytes} (hwhich : which.length = 1) :
    Temporary.findFrom temp which t [Ch.minus] = (.ok (tempFindSet temp t).1, (tempFindSet temp t).2) := by
  rw [Temporary.findFrom, if_neg (by simp [hwhich]), tempFindSet]
  by_cases hnil : (snapshot temp {t.state with positioned := false}).view = []
  · simp [findStep, hnil, Temporary.findFrom]
  · simp [findStep, hnil]

/-- The answer of a find, and what the variables are left on after it. -/
theorem Twins.findFrom (h : Twins sel temp left t d) {which steps : Bytes}
    (hend : steps = [] → ∀ left, Twins sel temp left t d) (hlength : steps.length ≤ which.length)
    (hagrees : chosen sel temp.rows ≠ [] ∨
      ∀ c ∈ (steps.dropWhile relative).head?, c = Ch.minus ∨ c = Ch.plus) :
    (Temporary.findFrom temp which t steps).1 = (Database.findFrom rows which d steps).1 ∧
      Twins sel temp
        (if (Answer.ofFind (Temporary.findFrom temp which t steps).1).raises then left
          else (Temporary.findFrom temp which t steps).2.record)
        (Temporary.findFrom temp which t steps).2 (Database.findFrom rows which d steps).2 := by
  induction steps generalizing t d with
  | nil => exact ⟨rfl, hend rfl _⟩
  | cons step steps ih =>
    by_cases halone : (step = Ch.minus ∨ step = Ch.plus) ∧ which.length ≠ 1
    · rw [Temporary.findFrom, if_pos halone, Database.findFrom, if_pos halone]
      exact ⟨rfl, h⟩
    by_cases hminus : step = Ch.minus
    · have hone : which.length = 1 := by
        by_contra hne
        exact halone ⟨.inl hminus, hne⟩
      have hnil : steps = [] := List.length_eq_zero_iff.mp (by simp only [List.length_cons] at hlength; omega)
      subst hminus hnil
      obtain ⟨hanswer, htwins⟩ := h.findSet hreads
      rw [findFrom_minus hone, Database.findFrom, if_neg halone, if_pos rfl]
      exact ⟨by rw [hanswer], htwins⟩
    have hsame : SameSelection sel {t.state with positioned := false} := {h.temporary with}
    have hview := viewing_snapshot hsame temp
    have hchosen : (snapshot temp {t.state with positioned := false}).view.map temp.row =
        chosen (snapshot temp {t.state with positioned := false}) temp.rows := by
      rw [hview.view, hview.same.chosen]
    have hlost := twins_lost hview rfl h.database h.record
    have hseek := seek_asked hreads h.database hminus
    have hasked := asked_same hview.same temp.rows t.record step
    rw [h.record] at hseek
    cases hwanted : asked sel temp.rows t.record step with
    | none =>
      rw [hwanted] at hseek hasked
      have hmoves := asked_eq_none.mp hwanted
      have hrows : chosen sel temp.rows ≠ [] := by
        refine hagrees.resolve_right fun hdeclared => ?_
        have := hdeclared step (by simp [relative, hmoves])
        simp [hmoves] at this
      have hraises := findStep_undeclared hchosen hasked
      rw [hview.same.chosen, if_neg hrows] at hraises
      have ht : Temporary.findFrom temp which t (step :: steps) = (.error (.undeclared step),
          {t with state := snapshot temp {t.state with positioned := false}}) := by
        simp only [Temporary.findFrom, if_neg halone, hraises]
      have hd : Database.findFrom rows which d (step :: steps) =
          (.error (.undeclared step), d.lost) := by
        simp only [Database.findFrom, if_neg halone, if_neg hminus, hseek]
      rw [ht, hd]
      exact ⟨rfl, hlost left⟩
    | some wanted =>
      rw [hwanted] at hseek hasked
      obtain ⟨sought, backwards, hfound, hselect⟩ := hseek
      obtain ⟨i, hi, hpoints⟩ := findStep_asked hchosen hasked
      cases hhead : wanted.head? with
      | none =>
        rw [hpoints.nowhere hhead] at hi
        have ht : Temporary.findFrom temp which t (step :: steps) = Temporary.findFrom temp which
            {t with state := snapshot temp {t.state with positioned := false}} steps := by
          simp only [Temporary.findFrom, if_neg halone, hi]
        have hd : Database.findFrom rows which d (step :: steps) =
            Database.findFrom rows which d.lost steps := by
          simp only [Database.findFrom, if_neg halone, if_neg hminus, hfound, hselect, hhead]
        rw [ht, hd]
        refine ih (hlost left) (fun _ => hlost) (by simp only [List.length_cons] at hlength; omega) ?_
        refine hagrees.imp_right fun hdeclared c hc => hdeclared c ?_
        by_cases hplus : step = Ch.plus
        · -- a plus stands alone, and nothing follows it
          have hone : which.length = 1 := by
            by_contra hne
            exact halone ⟨.inr hplus, hne⟩
          have hnil : steps = [] :=
            List.length_eq_zero_iff.mp (by simp only [List.length_cons] at hlength; omega)
          simp [hnil] at hc
        · have hrelative : relative step = true := by
            by_contra hnot
            rw [asked_eq_none.mpr (by simp_all [relative])] at hwanted
            cases hwanted
          rwa [List.dropWhile_cons_of_pos hrelative]
      | some row =>
        have hthere := hpoints.there
        rw [hhead] at hthere
        obtain ⟨i, rfl, hrow⟩ := Option.bind_eq_some_iff.mp hthere
        rw [hview.same.chosen] at hrow
        have ht : Temporary.findFrom temp which t (step :: steps) =
            (.ok true, land temp (snapshot temp {t.state with positioned := false}) i) := by
          simp only [Temporary.findFrom, if_neg halone, hi]
        have hd : Database.findFrom rows which d (step :: steps) = (.ok true, d.onRow row none) := by
          simp only [Database.findFrom, if_neg halone, if_neg hminus, hfound, hselect, hhead]
        have hrecord : (land temp (snapshot temp {t.state with positioned := false}) i).record = row :=
          land_record (hview.view.trans hview.selection.symm) (by rw [hview.selection, hrow])
        rw [ht, hd]
        refine ⟨rfl, ?_⟩
        show Twins sel temp (land temp _ i).record _ _
        rw [hrecord]
        exact twins_landed hview h.database hrow fun _ hc => by cases hc

/-! ### Get and SetPosition -/

theorem Twins.get (h : Twins sel temp left t d) (hkeys : table.keys ≠ []) (key : Record) :
    Answer.ofFind (runtimeGet rows {d with record := withKey table d.record key}).1 =
        .found (tempGet temp table (withKey table t.record key)).1 ∧
      Twins sel temp left {t with record := (tempGet temp table (withKey table t.record key)).2}
        (runtimeGet rows {d with record := withKey table d.record key}).2 := by
  rw [h.record]
  -- the row of a key is one, in whatever order the rows are read
  have hfind : ∀ row ∈ rows, byKey table row (withKey table t.record key) = .eq →
      rows.find? (fun row => byKey table row (withKey table t.record key) = .eq) = some row := by
    intro row hrow heq
    cases hfound : rows.find? fun row => byKey table row (withKey table t.record key) = .eq with
    | none => simpa [heq] using List.find?_eq_none.mp hfound row hrow
    | some other =>
      have hother : byKey table other (withKey table t.record key) = .eq := by
        simpa using List.find?_some hfound
      have hsame : byKey table other row = .eq :=
        Std.TransCmp.eq_trans hother (Std.OrientedCmp.eq_comm.mp heq)
      rw [eq_of_byKey hreads.increasing (hreads.perm.mem_iff.mp (List.mem_of_find?_eq_some hfound))
        (hreads.perm.mem_iff.mp hrow) hsame]
  rcases tempGet_cases hreads.increasing (withKey table t.record key) with
    ⟨before, row, after, hf, hget⟩ | ⟨before, after, hm, hget⟩
  · have hrow : row ∈ rows := hreads.perm.mem_iff.mpr (by simp [hf.split])
    have hdatabase : runtimeGet rows {d with record := withKey table t.record key} =
        (.ok true, d.onRow row none) := by
      simp only [runtimeGet, if_neg hkeys, hfind row hrow hf.same]
      rfl
    rw [hget, hdatabase]
    exact ⟨rfl, rfl, h.temporary, {h.database with}, fun _ => rfl, h.viewing, h.seat,
      fun _ hc => (by cases hc), fun hnot => (by cases hnot)⟩
  · have hnone : rows.find? (fun row => byKey table row (withKey table t.record key) = .eq) = none := by
      refine List.find?_eq_none.mpr fun row hrow heq => ?_
      have heq : byKey table row (withKey table t.record key) = .eq := by simpa using heq
      rcases List.mem_append.mp (hm.split ▸ hreads.perm.mem_iff.mp hrow) with hmem | hmem
      · rw [hm.smaller row hmem] at heq
        cases heq
      · rw [hm.greater row hmem] at heq
        cases heq
    have hdatabase : runtimeGet rows {d with record := withKey table t.record key} =
        (.ok false, {d with record := withKey table t.record key}) := by
      simp only [runtimeGet, if_neg hkeys, hnone]
    rw [hget, hdatabase]
    exact ⟨rfl, rfl, h.temporary, h.database, h.positioned, h.viewing, h.seat, h.cursor, h.closed⟩

omit hreads in
theorem Twins.setPosition (h : Twins sel temp left t d) (key left' : Record) :
    Twins sel temp left' (Temporary.takePosition t key) (Database.takePosition d key) := by
  refine ⟨?_, {h.temporary with}, {h.database with}, fun _ => rfl, fun hclean => (by cases hclean),
    fun hclean => (by cases hclean), fun _ hc => (by cases hc), fun hnot => (by cases hnot)⟩
  rw [Temporary.takePosition, Database.takePosition, h.record]

end Calls

end Agiru.Database
