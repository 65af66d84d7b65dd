import Agiru.Temporary.Map
import Agiru.Temporary.Next

/-! A walk over temporary rows: `FindSet`, then a body before each `Next` until it
answers zero.

A body may change the rows through any variable. Where each `Next` finds the walking
variable's record sorting as it was loaded, and the row that follows it is not one of
its own key, the walk is a tour of the variable's selection in the rows as they are at
each step. -/
namespace Agiru.Temporary
open SortedRows

variable {table : TableDef} {ι : Type} [DecidableEq ι]

/-- The rows a variable's filters and marks select, in the order of its sort fields. -/
def chosen (state : RecordState table) (rows : List Record) : List Record :=
  stableSort (walkOrder state.key state.ascending) (rows.filter (picked state state.filters))

namespace Sharing

def findSet (w : ι) (s : Sharing table ι) : Bool × Sharing table ι :=
  let (found, v) := tempFindSet s.temp (s.var w)
  (found, {s with var := Function.update s.var w v})

def next (w : ι) (s : Sharing table ι) : Int × Sharing table ι :=
  let (moved, v) := tempNext s.temp (s.var w) 1
  (moved, {s with var := Function.update s.var w v})

/-- `repeat body until Next = 0`, as far as there are bodies: the records it lands on, and
the rows there are at each `Next`. -/
def repeats (w : ι) (s : Sharing table ι) : List (List (Op table ι)) →
    List Record × List (List Record)
  | [] => ([], [])
  | body :: bodies =>
    let s := s.run body
    let (moved, after) := s.next w
    if moved = 0 then ([], [s.temp.rows])
    else
      let (visited, seen) := after.repeats w bodies
      (after.record w :: visited, s.temp.rows :: seen)

/-- The whole loop. -/
def loop (w : ι) (s : Sharing table ι) (bodies : List (List (Op table ι))) :
    List Record × List (List Record) :=
  let (found, after) := s.findSet w
  if found then
    let (visited, seen) := after.repeats w bodies
    (after.record w :: visited, s.temp.rows :: seen)
  else ([], [s.temp.rows])

end Sharing

/-- Whether an operation changes a variable's filters, sort fields or marks. -/
def Op.Selects (w : ι) : Op table ι → Prop
  | .select i _ => i = w
  | _ => False

/-- The rows after a record that a variable selects. -/
def rowsAfter (chosenBy : RecordState table) (rows : List Record) (record : Record) : List Record :=
  following (walkOrder chosenBy.key chosenBy.ascending) (chosen chosenBy rows) record

/-- What the bodies leave for each `Next` of a walk: the variable's record sorts as the row
it stood on, the selected row that follows is not one of its key, and the rows changed fewer than
2^64 times. -/
def Sharing.Keeps (w : ι) (chosenBy : RecordState table) (s : Sharing table ι) :
    List (List (Op table ι)) → Prop
  | [] => True
  | body :: bodies =>
    let after := s.run body
    walkOrder chosenBy.key chosenBy.ascending (after.record w) (s.record w) = .eq ∧
      (∀ row, (rowsAfter chosenBy after.temp.rows (after.record w)).head? = some row →
        byKey table row (after.record w) ≠ .eq) ∧
      s.changes body < 2 ^ 64 ∧
      ((after.next w).1 ≠ 0 → (after.next w).2.Keeps w chosenBy bodies)

/-! ### Changing the rows leaves a variable's state -/

theorem state_step {w : ι} {op : Op table ι} (h : ¬ op.Selects w) (s : Sharing table ι) :
    ((Sharing.step op s).2.var w).state = (s.var w).state := by
  have hload : ∀ i record, ((s.load i record).var w).state = (s.var w).state := by
    intro i record
    by_cases hi : w = i
    · subst hi
      simp [Sharing.load]
    · simp [Sharing.load, hi]
  cases op with
  | get i => exact hload i _
  | assign i record => exact hload i record
  | select i state =>
    have hi : w ≠ i := fun heq => h heq.symm
    simp [Sharing.step, hi]
  | _ => rfl

theorem state_run {w : ι} {ops : List (Op table ι)} (h : ∀ op ∈ ops, ¬ op.Selects w)
    (s : Sharing table ι) : ((s.run ops).var w).state = (s.var w).state := by
  induction ops generalizing s with
  | nil => rfl
  | cons op ops ih =>
    obtain ⟨hop, hops⟩ := List.forall_mem_cons.mp h
    rw [Sharing.run, ih hops, state_step hop]

/-- Fewer changes than the version counts leave it only where they leave the rows. -/
theorem temp_run {s : Sharing table ι} (h : Increasing (byKey table) s.temp.rows) {ops : List (Op table ι)}
    (hfew : s.changes ops < 2 ^ 64) (hsame : s.temp.version = (s.run ops).temp.version) :
    (s.run ops).temp = s.temp := by
  obtain ⟨hversion, hnone⟩ := Sharing.version_run h ops
  rw [hversion, eq_comm, UInt64.add_eq_left, ← UInt64.toNat_inj, UInt64.toNat_ofNat', Nat.mod_eq_of_lt hfew] at hsame
  exact hnone hsame

/-! ### The walking variable between the calls -/

/-- A variable that stands on a row of a walk over a selection. -/
structure Standing (chosenBy : RecordState table) (temp : TempTable) (v : Variable table) : Prop where
  seated : Seated temp v
  positioned : v.state.positioned = true
  clean : v.state.viewDirty = false
  viewFilters : v.state.viewFilters = chosenBy.filters
  viewKey : v.state.viewKey = chosenBy.key
  viewAscending : v.state.viewAscending = chosenBy.ascending
  marks : v.state.marks = chosenBy.marks
  markedOnly : v.state.markedOnly = chosenBy.markedOnly

/-- And whose view is that of the present rows. -/
structure Landed (chosenBy : RecordState table) (temp : TempTable) (v : Variable table) : Prop
    extends Standing chosenBy temp v where
  current : v.state.viewVersion = temp.version

variable {chosenBy : RecordState table} {temp : TempTable} {v : Variable table}

theorem Standing.selection (h : Standing chosenBy temp v) (other : TempTable) :
    selection other v.state = chosen chosenBy other.rows := by
  have hpicked : picked v.state v.state.viewFilters = picked chosenBy chosenBy.filters := by
    funext row
    rw [picked, picked, h.viewFilters, h.marks, h.markedOnly]
  rw [Temporary.selection, chosen, hpicked, h.viewKey, h.viewAscending]

theorem renewed_state (temp : TempTable) (h : v.state.viewDirty = false) : ∃ view,
    renewed temp v.state = {v.state with view, viewVersion := temp.version} := by
  rw [renewed, if_neg (by simp [h])]
  split
  · exact ⟨_, rfl⟩
  · next hversion =>
    rw [← not_not.mp hversion]
    exact ⟨_, rfl⟩

/-- A refresh of an unchanged selection renews the view and the position only. -/
theorem refresh_state (temp : TempTable) (h : v.state.viewDirty = false) : ∃ view i,
    (refresh temp v).1 = {v.state with view, «at» := i, viewVersion := temp.version} := by
  obtain ⟨view, heq⟩ := renewed_state temp h
  unfold refresh
  rw [heq]
  dsimp only
  split <;> exact ⟨_, _, rfl⟩

/-- Landing on a row of a current view. -/
theorem seated_land {state : RecordState table}
    (hview : state.view.map temp.row = selection temp state) {i : Nat} {row : Record}
    (hi : (selection temp state)[i]? = some row) : Seated temp (land temp state i) := by
  refine ⟨fun _ _ => hview, fun _ _ other hother => ?_⟩
  have hrow := land_record hview hi
  have hsame : other = row := by
    have hat : (selection temp state)[i]? = some other := hother
    simpa [hat] using hi
  rw [hrow, hsame]
  exact Std.ReflCmp.compare_self

theorem Standing.land (h : Standing chosenBy temp v)
    (hview : (refresh temp v).1.view.map temp.row = Temporary.selection temp (refresh temp v).1)
    {i : Nat} {row : Record} (hi : (Temporary.selection temp (refresh temp v).1)[i]? = some row) :
    Landed chosenBy temp (land temp (refresh temp v).1 i) := by
  refine ⟨⟨seated_land hview hi, rfl, ?_, ?_, ?_, ?_, ?_, ?_⟩, ?_⟩ <;>
    obtain ⟨view, n, heq⟩ := refresh_state temp h.clean <;>
    simp only [Temporary.land, heq]
  · exact h.clean
  · exact h.viewFilters
  · exact h.viewKey
  · exact h.viewAscending
  · exact h.marks
  · exact h.markedOnly

/-- The rows change through other calls, and the variable's record keeps its place. -/
theorem Landed.run {w : ι} {s : Sharing table ι} {body : List (Op table ι)}
    (h : Landed chosenBy s.temp (s.var w)) (hrows : Increasing (byKey table) s.temp.rows)
    (hbody : ∀ op ∈ body, ¬ op.Selects w) (hfew : s.changes body < 2 ^ 64)
    (hkept : walkOrder chosenBy.key chosenBy.ascending ((s.run body).record w) (s.record w) = .eq) :
    Standing chosenBy (s.run body).temp ((s.run body).var w) := by
  have hstate := state_run hbody s
  -- a view of the present version is a view of the rows the body began with
  have hsame : (s.var w).state.viewVersion = (s.run body).temp.version → (s.run body).temp = s.temp :=
    fun heq => temp_run hrows hfew (h.current ▸ heq)
  refine ⟨⟨?_, ?_⟩, ?_, ?_, ?_, ?_, ?_, ?_, ?_⟩ <;> rw [hstate]
  · intro hclean heq
    rw [hsame heq]
    exact h.seated.view hclean h.current
  · intro hclean heq row hrow
    rw [hsame heq] at hrow
    have hthere := h.seated.record hclean h.current row hrow
    rw [h.viewKey, h.viewAscending] at hthere ⊢
    rw [Std.TransCmp.congr_left hthere]
    exact Std.OrientedCmp.eq_comm.mp hkept
  · exact h.positioned
  · exact h.clean
  · exact h.viewFilters
  · exact h.viewKey
  · exact h.viewAscending
  · exact h.marks
  · exact h.markedOnly

theorem Standing.settled (h : Standing chosenBy temp v)
    (hkept : ∀ row, (rowsAfter chosenBy temp.rows v.record).head? = some row →
      byKey table row v.record ≠ .eq) : Settled temp v := by
  obtain ⟨view, heq⟩ := renewed_state temp h.clean
  have hselection : Temporary.selection temp (renewed temp v.state) =
      Temporary.selection temp v.state := by
    rw [heq]
    rfl
  unfold Settled
  dsimp only
  rw [hselection, h.selection, heq]
  dsimp only
  rw [h.viewKey, h.viewAscending]
  exact hkept

/-- **One `Next` of a walk** lands on the first selected row after the record, and
answers zero where there is none. -/
theorem Standing.next (h : Standing chosenBy temp v) (hrows : Increasing (byKey table) temp.rows)
    (hkept : ∀ row, (rowsAfter chosenBy temp.rows v.record).head? = some row →
      byKey table row v.record ≠ .eq) :
    match (rowsAfter chosenBy temp.rows v.record).head? with
    | none => (tempNext temp v 1).1 = 0
    | some row => (tempNext temp v 1).1 = 1 ∧ (tempNext temp v 1).2.record = row ∧
        Landed chosenBy temp (tempNext temp v 1).2 := by
  have hanchored := anchored_refresh hrows h.seated (h.settled hkept)
  have hsteps := steps_ahead (show (1 : Int) ≠ 0 by decide) h.positioned hrows hanchored
  obtain ⟨view, i, hstate⟩ := refresh_state temp h.clean
  have hahead : ahead temp (refresh temp v).1 v.record 1 = rowsAfter chosenBy temp.rows v.record := by
    have hselection : Temporary.selection temp (refresh temp v).1 = Temporary.selection temp v.state := by
      rw [hstate]
      rfl
    rw [ahead, if_pos (by decide), hselection, h.selection, hstate]
    simp only [h.viewKey, h.viewAscending, rowsAfter]
  rw [hahead] at hsteps
  cases hrest : rowsAfter chosenBy temp.rows v.record with
  | nil => simpa [hrest] using hsteps.answer
  | cons row rest =>
    rw [hrest] at hsteps
    have hone : min (1 : Int).natAbs (row :: rest).length = 1 := by simp
    obtain ⟨n, landed, hlanded, hn, hv⟩ := hsteps.lands (by rw [hone]; decide)
    rw [hone] at hlanded
    obtain rfl : row = landed := by simpa using hlanded
    refine ⟨by simpa [hone] using hsteps.answer, ?_, ?_⟩
    · rw [hv, land_record hanchored.view hn]
    · rw [hv]
      exact h.land hanchored.view hn

/-! ### The whole walk -/

section Loop
variable {w : ι} {s : Sharing table ι} {bodies : List (List (Op table ι))}

/-- The rest of a walk follows the record through the rows it sees. -/
theorem repeats_follow (h : Landed chosenBy s.temp (s.var w))
    (hrows : Increasing (byKey table) s.temp.rows)
    (hbodies : ∀ body ∈ bodies, ∀ op ∈ body, ¬ op.Selects w)
    (hkeeps : s.Keeps w chosenBy bodies) :
    (s.repeats w bodies).1 = follow (walkOrder chosenBy.key chosenBy.ascending) (s.record w)
        ((s.repeats w bodies).2.map (chosen chosenBy)) ∧
      ∀ rows ∈ (s.repeats w bodies).2, Increasing (byKey table) rows := by
  induction bodies generalizing s with
  | nil => exact ⟨rfl, by simp [Sharing.repeats]⟩
  | cons body bodies ih =>
    obtain ⟨hbody, hbodies⟩ := List.forall_mem_cons.mp hbodies
    obtain ⟨hsame, hsorted, hfew, hlater⟩ := hkeeps
    have hstanding := h.run hrows hbody hfew hsame
    have hincreasing := Sharing.increasing_run hrows body
    have hnext := hstanding.next hincreasing hsorted
    have hplace : rowsAfter chosenBy (s.run body).temp.rows ((s.run body).record w) =
        following (walkOrder chosenBy.key chosenBy.ascending)
          (chosen chosenBy (s.run body).temp.rows) (s.record w) := by
      simp only [rowsAfter, following, Std.TransCmp.congr_right hsame]
    rw [show ((s.run body).var w).record = (s.run body).record w from rfl, hplace] at hnext
    have hvar : ((s.run body).next w).2.var w =
        (tempNext (s.run body).temp ((s.run body).var w) 1).2 := by simp [Sharing.next]
    rw [Sharing.repeats]
    cases hhead : (following (walkOrder chosenBy.key chosenBy.ascending)
        (chosen chosenBy (s.run body).temp.rows) (s.record w)).head? with
    | none =>
      rw [hhead] at hnext
      have hmoved : ((s.run body).next w).1 = 0 := hnext
      simp only [hmoved, if_true]
      refine ⟨by simp [follow, hhead], by simpa using hincreasing⟩
    | some row =>
      rw [hhead] at hnext
      obtain ⟨hanswer, hrecord, hstands⟩ := hnext
      have hmoved : ((s.run body).next w).1 = 1 := hanswer
      have hlanded : ((s.run body).next w).2.record w = row := by
        rw [← hrecord, Sharing.record, hvar]
      have hrest := ih (s := ((s.run body).next w).2) (by rw [hvar]; exact hstands) hincreasing hbodies
        (hlater (by rw [hmoved]; decide))
      simp only [hmoved, if_neg (show ¬ (1 : Int) = 0 by decide), List.map_cons, follow, hhead]
      refine ⟨by rw [hrest.1, hlanded], ?_⟩
      exact List.forall_mem_cons.mpr ⟨hincreasing, hrest.2⟩

theorem increasing_chosen {rows : List Record} (h : Increasing (byKey table) rows)
    (state : RecordState table) :
    Increasing (walkOrder state.key state.ascending) (chosen state rows) :=
  @increasing_selection _ ⟨rows, 0⟩ h
    {state with viewFilters := state.filters, viewKey := state.key, viewAscending := state.ascending}

/-- `FindSet` stands on the first selected row, where there is one. -/
theorem findSet_stands (temp : TempTable) (v : Variable table) :
    match (chosen v.state temp.rows).head? with
    | none => (tempFindSet temp v).1 = false
    | some row => (tempFindSet temp v).1 = true ∧ (tempFindSet temp v).2.record = row ∧
        Landed v.state temp (tempFindSet temp v).2 := by
  have hview : (snapshot temp {v.state with positioned := false}).view.map temp.row =
      chosen v.state temp.rows := build_view temp _
  cases hchosen : chosen v.state temp.rows with
  | nil =>
    have hnil : (snapshot temp {v.state with positioned := false}).view = [] := by
      simpa [hchosen] using hview
    simp [tempFindSet, hnil]
  | cons row rest =>
    have hcons : (snapshot temp {v.state with positioned := false}).view ≠ [] := fun hnil => by
      simp [hnil, hchosen] at hview
    have hfind : tempFindSet temp v =
        (true, land temp (snapshot temp {v.state with positioned := false}) 0) := by
      rw [tempFindSet]
      exact if_neg hcons
    have hcurrent : (snapshot temp {v.state with positioned := false}).view.map temp.row =
        selection temp (snapshot temp {v.state with positioned := false}) := hview
    have hfirst : (selection temp (snapshot temp {v.state with positioned := false}))[0]? =
        some row := by
      rw [← hcurrent, hview, hchosen]
      rfl
    rw [hfind]
    refine ⟨rfl, land_record hcurrent hfirst, ?_⟩
    exact ⟨⟨seated_land hcurrent hfirst, rfl, rfl, rfl, rfl, rfl, rfl, rfl⟩, rfl⟩

/-- A loop is a tour of the selection in the rows it sees. -/
theorem loop_tour (hrows : Increasing (byKey table) s.temp.rows)
    (hbodies : ∀ body ∈ bodies, ∀ op ∈ body, ¬ op.Selects w)
    (hkeeps : (s.findSet w).2.Keeps w (s.var w).state bodies) :
    ∃ later, (s.loop w bodies).2 = s.temp.rows :: later ∧
      (s.loop w bodies).1 = tour (walkOrder (s.var w).state.key (s.var w).state.ascending)
        (chosen (s.var w).state s.temp.rows) (later.map (chosen (s.var w).state)) ∧
      ∀ rows ∈ later, Increasing (byKey table) rows := by
  have hfind := findSet_stands s.temp (s.var w)
  have hvar : (s.findSet w).2.var w = (tempFindSet s.temp (s.var w)).2 := by simp [Sharing.findSet]
  rw [Sharing.loop]
  cases hhead : (chosen (s.var w).state s.temp.rows).head? with
  | none =>
    rw [hhead] at hfind
    have hnone : (s.findSet w).1 = false := hfind
    exact ⟨[], by simp [hnone], by simp [hnone, tour, hhead], by simp⟩
  | some row =>
    rw [hhead] at hfind
    obtain ⟨hanswer, hrecord, hstands⟩ := hfind
    have hfound : (s.findSet w).1 = true := hanswer
    have hlanded : (s.findSet w).2.record w = row := by rw [← hrecord, Sharing.record, hvar]
    have hrest := repeats_follow (s := (s.findSet w).2) (by rw [hvar]; exact hstands) hrows hbodies
      hkeeps
    simp only [hfound, if_true, tour, hhead]
    exact ⟨_, rfl, by rw [hrest.1, hlanded], hrest.2⟩

end Loop

/-- **A walk visits its selection.** After any run, with any changes of the rows between
its steps that leave the walking variable's record in its place, a loop visits, strictly
going on, the selected rows that there are when it comes to them, ends only after the
last, and misses none that is there throughout. -/
theorem walk_visits_selection (var : ι → Variable table) (ops : List (Op table ι)) (w : ι)
    (bodies : List (List (Op table ι))) (hbodies : ∀ body ∈ bodies, ∀ op ∈ body, ¬ op.Selects w) :
    let s := Sharing.run ⟨{}, var⟩ ops
    let state := (s.var w).state
    let by_ := walkOrder state.key state.ascending
    (s.findSet w).2.Keeps w state bodies →
    let visited := (s.loop w bodies).1
    let seen := (s.loop w bodies).2.map (chosen state)
    Exact by_ visited seen ∧
      (visited.length < seen.length → ∀ r, (∀ rows ∈ seen, ∃ r' ∈ rows, by_ r' r = .eq) →
        ∃ x ∈ visited, by_ x r = .eq) := by
  intro s state by_ hkeeps visited seen
  have hrows : Increasing (byKey table) s.temp.rows :=
    Sharing.increasing_run (s := ⟨{}, var⟩) List.Pairwise.nil ops
  obtain ⟨later, hseen, hvisited, hlater⟩ := loop_tour hrows hbodies hkeeps
  have hexact : Exact by_ visited seen := by
    have hsorted : ∀ rows ∈ later.map (chosen state), Increasing by_ rows :=
      List.forall_mem_map.mpr fun rows hmem => increasing_chosen (hlater rows hmem) state
    simp only [visited, seen, hseen, hvisited]
    exact exact_tour (increasing_chosen hrows state) hsorted
  exact ⟨hexact, fun hended r hr =>
    hexact.throughout hended fun rows hmem => hr rows (List.mem_of_mem_take hmem)⟩

section Examples

/-- A variable that writes, and one that walks by the second field. -/
def ranked (key : List (SortField items)) (writes : List (Op items Bool)) : Sharing items Bool :=
  Sharing.run ⟨{}, fun _ => {record := item 0 0, state := {key}}⟩ writes

def byRank : List (SortField items) := [⟨2, true, rfl⟩]

def put (no rank : Int32) : List (Op items Bool) := [.assign false (item no rank), .insert false]

/-- The current row deleted, and a later one inserted through another variable. -/
theorem walk_visits_selection_of_items :
    ((ranked byRank (put 1 10 ++ put 2 20)).loop true [.delete true :: put 3 30, [], []]).1.map
        (fun r => (r 1).number) = [1, 2, 3] ∧
      Increasing (walkOrder byRank true)
        ((ranked byRank (put 1 10 ++ put 2 20)).loop true [.delete true :: put 3 30, [], []]).1 := by
  refine ⟨by decide +kernel, ?_⟩
  have hbodies : ∀ body ∈ [.delete true :: put 3 30, [], []], ∀ op ∈ body, ¬ Op.Selects true op := by
    simp [put, Op.Selects]
  have hwalk := walk_visits_selection
    (fun _ => {record := item 0 0, state := {key := byRank}}) (put 1 10 ++ put 2 20) true _ hbodies
    ⟨by decide +kernel, by decide +kernel, by decide +kernel, fun _ => ⟨by decide +kernel, by decide +kernel,
      by decide +kernel, fun _ => ⟨by decide +kernel, by decide +kernel, by decide +kernel, fun _ => trivial⟩⟩⟩
  exact hwalk.1.increasing

/-- A walk that inserts through its own variable goes on from what it inserted, and one
whose row is deleted and inserted again further on steps over it. -/
theorem walk_revisits_and_skips :
    (let s := ranked byRank (put 1 10 ++ put 2 20)
      let bodies := [[], [.assign true (item 0 0), .insert true], [], []]
      ¬ Exact (walkOrder byRank true) (s.loop true bodies).1
        ((s.loop true bodies).2.map (chosen (s.var true).state))) ∧
    (let s := ranked byRank (put 1 10 ++ put 2 20)
      let bodies := [[], .assign false (item 2 0) :: .delete false :: put 2 30]
      ¬ Exact (walkOrder byRank true) (s.loop true bodies).1
        ((s.loop true bodies).2.map (chosen (s.var true).state))) := by
  refine ⟨fun h => ?_, fun h => ?_⟩
  · have hincreasing := h.increasing
    unfold Increasing at hincreasing
    revert hincreasing
    decide +kernel
  · have hlast := h.last [item 1 10, item 2 30] rfl (item 2 30) (by simp)
    revert hlast
    decide +kernel

end Examples

end Agiru.Temporary
