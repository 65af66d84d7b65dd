import Agiru.Library.Steps
import Agiru.Temporary.Rows

/-! The view of a temporary record, and the calls that move in it.

A find selects the rows and sorts them, by row numbers; what moves afterwards steps in
that view, which is built again when the rows have changed. Where the view is that of
the present rows, it is the selection, strictly increasing in the walk's order.

What `Next` does.

Where the view is that of the present rows and the record's place in it is known, `Next`
steps to the rows that follow or precede the record, and stops at the last of them. The
place is known after a refresh, unless the row that follows the record is one of its own
key. -/
namespace Agiru.Temporary
open SortedRows

variable {table : TableDef}

/-- The order a variable walks in. -/
abbrev walkOrder (key : List (SortField table)) (ascending : Bool) (a b : Record) : Ordering :=
  RecordOrder.compare a b (RecordOrder.columns key ascending)

instance (key : List (SortField table)) (ascending : Bool) :
    Std.TransCmp (walkOrder key ascending) :=
  inferInstanceAs (Std.TransCmp fun a b => RecordOrder.compare a b (RecordOrder.columns key ascending))

/-- The row at a position. No view points beyond the rows. -/
def TempTable.row (temp : TempTable) (i : Nat) : Record := temp.rows.getD i fun _ => .integer 0

/-- Whether a row is in the selection of some filters and the variable's marks. -/
def picked (state : RecordState table) (filters : List (FieldFilter table)) (row : Record) : Bool :=
  !(state.markedOnly && markKey table row ∉ state.marks) && RecordFilter.matchesRow filters row

/-- `Build`. -/
def build (temp : TempTable) (state : RecordState table) : RecordState table :=
  let chosen := (List.range temp.rows.length).filter fun i =>
    picked state state.viewFilters (temp.row i)
  {state with
    view := stableSort
      (fun a b => walkOrder state.viewKey state.viewAscending (temp.row a) (temp.row b)) chosen
    viewVersion := temp.version}

/-- `Snapshot`. -/
def snapshot (temp : TempTable) (state : RecordState table) : RecordState table :=
  let state :=
    {state with viewFilters := state.filters, viewKey := state.key, viewAscending := state.ascending}
  {build temp state with viewDirty := false}

/-- `Land`: on the row a position of the view points to. -/
def land (temp : TempTable) (state : RecordState table) (i : Nat) : Variable table where
  record := temp.row (state.view.getD i 0)
  state := {state with «at» := i, positioned := true}

structure Anchor where
  «at» : Nat
  found : Bool

/-- The state with its view of the present rows. -/
def renewed (temp : TempTable) (state : RecordState table) : RecordState table :=
  if state.viewDirty then snapshot temp state
  else if state.viewVersion ≠ temp.version then build temp state
  else state

/-- `Refresh`: the state with its view of the present rows, and where the record stands
or belongs in it. -/
def refresh (temp : TempTable) (v : Variable table) : RecordState table × Anchor :=
  let state := renewed temp v.state
  if v.state.viewDirty = false ∧ v.state.viewVersion = temp.version ∧ state.at < state.view.length then
    (state, {«at» := state.at, found := true})
  else
    let i := Search.lowerBound
      (fun row => walkOrder state.viewKey state.viewAscending (temp.row row) v.record = .lt) state.view
    let same := state.view[i]?.any fun row => byKey table (temp.row row) v.record = .eq
    ({state with «at» := if same then i else state.view.length}, {«at» := i, found := same})

/-- `TempFindSet`. -/
def tempFindSet (temp : TempTable) (v : Variable table) : Bool × Variable table :=
  let state := snapshot temp {v.state with positioned := false}
  if state.view = [] then (false, {v with state}) else (true, land temp state 0)

/-- The loop of `TempNext`, from a position on: the last position reached and how many
were taken. -/
def walkFrom (size : Nat) (forward : Bool) («at» last taken : Nat) : Nat → Nat × Nat
  | 0 => (last, taken)
  | count + 1 =>
    if size ≤ «at» then (last, taken)
    else if !forward ∧ «at» = 0 then («at», taken + 1)
    else walkFrom size forward (if forward then «at» + 1 else «at» - 1) «at» (taken + 1) count

/-- `TempNext`. -/
def tempNext (temp : TempTable) (v : Variable table) (steps : Int) : Int × Variable table :=
  if steps = 0 then (0, v)
  else if !v.state.positioned then (0, v)
  else
    let (state, anchor) := refresh temp v
    if steps < 0 ∧ anchor.at = 0 then (0, {v with state})
    else
      let «at» :=
        if 0 < steps then (if anchor.found then anchor.at + 1 else anchor.at) else anchor.at - 1
      let (last, taken) := walkFrom state.view.length (0 < steps) «at» «at» 0 steps.natAbs
      (if steps < 0 then -taken else taken,
        if taken ≠ 0 then land temp state last else {v with state})

/-! ### The view is the selection -/

/-- The rows the view's filters and the marks select, in the view's order. -/
def selection (temp : TempTable) (state : RecordState table) : List Record :=
  stableSort (walkOrder state.viewKey state.viewAscending)
    (temp.rows.filter (picked state state.viewFilters))

theorem map_row (temp : TempTable) : (List.range temp.rows.length).map temp.row = temp.rows := by
  refine List.ext_getElem (by simp) fun i hi hi' => ?_
  simp [TempTable.row, hi']

theorem build_view (temp : TempTable) (state : RecordState table) :
    (build temp state).view.map temp.row = selection temp state := by
  have hfilter := List.filter_map (f := temp.row) (p := picked state state.viewFilters)
    (l := List.range temp.rows.length)
  rw [map_row] at hfilter
  rw [selection, hfilter, ← map_stableSort, build]
  rfl

/-- Rows of distinct keys are selected in strictly increasing order. -/
theorem increasing_selection {temp : TempTable} (h : Increasing (byKey table) temp.rows)
    (state : RecordState table) :
    Increasing (walkOrder state.viewKey state.viewAscending) (selection temp state) := by
  refine increasing_stableSort ((h.sublist List.filter_sublist).imp fun hlt heq => ?_)
  rw [byKey, RecordOrder.ordered_of_compare heq] at hlt
  cases hlt

variable {table : TableDef}

theorem walkFrom_forward (size i last taken count : Nat) :
    walkFrom size true i last taken count =
      (if min count (size - i) = 0 then last else i + min count (size - i) - 1,
        taken + min count (size - i)) := by
  induction count generalizing i last taken with
  | zero => simp [walkFrom]
  | succ count ih =>
    rw [walkFrom]
    by_cases hend : size ≤ i
    · simp [hend, Nat.sub_eq_zero_of_le hend]
    · have hmin : min (count + 1) (size - i) = min count (size - (i + 1)) + 1 := by omega
      rw [if_neg hend, if_neg (by simp), if_pos rfl, ih, hmin, if_neg (Nat.succ_ne_zero _)]
      refine Prod.ext ?_ (by simp only; omega)
      dsimp only
      split <;> omega

theorem walkFrom_backward {size i : Nat} (h : i < size) (last taken count : Nat) :
    walkFrom size false i last taken count =
      (if min count (i + 1) = 0 then last else i + 1 - min count (i + 1),
        taken + min count (i + 1)) := by
  induction count generalizing i last taken with
  | zero => simp [walkFrom]
  | succ count ih =>
    rw [walkFrom, if_neg (by omega)]
    by_cases hzero : i = 0
    · subst hzero
      simp
    · have hmin : min (count + 1) (i + 1) = min count i + 1 := by omega
      have hback : i - 1 + 1 = i := by omega
      rw [if_neg (by simp [hzero]), if_neg (by simp), ih (by omega), hback, hmin, if_neg (Nat.succ_ne_zero _)]
      refine Prod.ext ?_ (by simp only; omega)
      dsimp only
      split <;> omega

/-- The view is that of the present rows, and the anchor says where the record stands
or belongs in it. -/
structure Anchored (temp : TempTable) (record : Record) (state : RecordState table)
    (anchor : Anchor) : Prop where
  view : state.view.map temp.row = selection temp state
  place : anchor.at = place (walkOrder state.viewKey state.viewAscending) (selection temp state) record
  found : anchor.found = sameAt (walkOrder state.viewKey state.viewAscending) (selection temp state)
    anchor.at record

/-- The rows `Next` steps to, the nearest first. -/
def ahead (temp : TempTable) (state : RecordState table) (record : Record) (steps : Int) :
    List Record :=
  let by_ := walkOrder state.viewKey state.viewAscending
  if 0 < steps then following by_ (selection temp state) record
  else preceding by_ (selection temp state) record

theorem land_record {temp : TempTable} {state : RecordState table}
    (h : state.view.map temp.row = selection temp state) {i : Nat} {row : Record}
    (hi : (selection temp state)[i]? = some row) : (land temp state i).record = row := by
  rw [← h, List.getElem?_map, Option.map_eq_some_iff] at hi
  obtain ⟨n, hn, rfl⟩ := hi
  simp [land, hn]

/-- What `Next` answers and leaves when these rows are ahead. -/
structure Steps (temp : TempTable) (v : Variable table) (steps : Int) (rows : List Record) :
    Prop where
  answer : (tempNext temp v steps).1 =
    if steps < 0 then -((min steps.natAbs rows.length : Nat) : Int)
    else (min steps.natAbs rows.length : Nat)
  stays : min steps.natAbs rows.length = 0 →
    (tempNext temp v steps).2 = {v with state := (refresh temp v).1}
  lands : min steps.natAbs rows.length ≠ 0 → ∃ i row,
    rows[min steps.natAbs rows.length - 1]? = some row ∧
      (selection temp (refresh temp v).1)[i]? = some row ∧
        (tempNext temp v steps).2 = land temp (refresh temp v).1 i

section Known
variable {temp : TempTable} {v : Variable table} {steps : Int}
  (hpos : v.state.positioned = true)
  (hview : (refresh temp v).1.view.map temp.row = selection temp (refresh temp v).1)
include hpos hview

/-- Forward from where the rows after the record begin. -/
theorem steps_forward (hsteps : 0 < steps) {front after : List Record}
    (hsplit : selection temp (refresh temp v).1 = front ++ after)
    (hat : (if (refresh temp v).2.found then (refresh temp v).2.at + 1 else (refresh temp v).2.at) =
      front.length) : Steps temp v steps after := by
  have hsize : (refresh temp v).1.view.length = front.length + after.length := by
    have hlength := congrArg List.length (hview.trans hsplit)
    rwa [List.length_map, List.length_append] at hlength
  have hnext : tempNext temp v steps =
      (((min steps.natAbs after.length : Nat) : Int), if min steps.natAbs after.length ≠ 0 then
          land temp (refresh temp v).1 (front.length + min steps.natAbs after.length - 1)
        else {v with state := (refresh temp v).1}) := by
    have hsub : front.length + after.length - front.length = after.length := by omega
    rw [tempNext, if_neg (by omega), if_neg (by simp [hpos])]
    simp only [if_neg (show ¬ (steps < 0 ∧ (refresh temp v).2.at = 0) by omega), if_pos hsteps, hat,
      decide_eq_true hsteps, walkFrom_forward, hsize, hsub, Nat.zero_add, if_neg (show ¬ steps < 0 by omega)]
    refine Prod.ext rfl ?_
    dsimp only
    split <;> rfl
  refine ⟨?_, fun hzero => ?_, fun hne => ?_⟩
  · rw [hnext, if_neg (show ¬ steps < 0 by omega)]
  · rw [hnext, if_neg (not_not.mpr hzero)]
  · have hlt : min steps.natAbs after.length - 1 < after.length := by omega
    refine ⟨front.length + min steps.natAbs after.length - 1, _, List.getElem?_eq_getElem hlt, ?_, ?_⟩
    · rw [hsplit, List.getElem?_append_right (by omega), ← List.getElem?_eq_getElem hlt]
      congr 1
      omega
    · rw [hnext, if_pos hne]

/-- Backward from where the rows before the record end. -/
theorem steps_backward (hsteps : steps < 0) {before rest : List Record}
    (hsplit : selection temp (refresh temp v).1 = before ++ rest)
    (hat : (refresh temp v).2.at = before.length) : Steps temp v steps before.reverse := by
  have hsize : (refresh temp v).1.view.length = before.length + rest.length := by
    have hlength := congrArg List.length (hview.trans hsplit)
    rwa [List.length_map, List.length_append] at hlength
  have hnext : tempNext temp v steps =
      (-((min steps.natAbs before.length : Nat) : Int), if min steps.natAbs before.length ≠ 0 then
          land temp (refresh temp v).1 (before.length - min steps.natAbs before.length)
        else {v with state := (refresh temp v).1}) := by
    rw [tempNext, if_neg (by omega), if_neg (by simp [hpos])]
    by_cases hnil : before.length = 0
    · simp [hat, hnil, hsteps]
    · have hback : before.length - 1 + 1 = before.length := by omega
      simp only [hat, if_neg (show ¬ (steps < 0 ∧ before.length = 0) by omega),
        if_neg (show ¬ 0 < steps by omega), decide_eq_false (show ¬ 0 < steps by omega),
        walkFrom_backward (show before.length - 1 < (refresh temp v).1.view.length by omega),
        hback, Nat.zero_add, if_pos hsteps]
      refine Prod.ext rfl ?_
      dsimp only
      split <;> rfl
  refine ⟨?_, fun hzero => ?_, fun hne => ?_⟩
  · rw [hnext, if_pos hsteps, List.length_reverse]
  · rw [hnext, if_neg (not_not.mpr (by rwa [List.length_reverse] at hzero))]
  · rw [List.length_reverse] at hne
    have hlt : before.length - min steps.natAbs before.length < before.length := by omega
    refine ⟨before.length - min steps.natAbs before.length,
      before[before.length - min steps.natAbs before.length], ?_, ?_, ?_⟩
    · rw [List.length_reverse, List.getElem?_reverse (by omega), ← List.getElem?_eq_getElem hlt]
      congr 1
      omega
    · rw [hsplit, List.getElem?_append_left hlt, List.getElem?_eq_getElem hlt]
    · rw [hnext, if_pos hne]

end Known

/-- **`Next` from a known place** steps to the rows ahead of the record. -/
theorem steps_ahead {temp : TempTable} {v : Variable table} {steps : Int} (hsteps : steps ≠ 0)
    (hpos : v.state.positioned = true) (hrows : Increasing (byKey table) temp.rows)
    (h : Anchored temp v.record (refresh temp v).1 (refresh temp v).2) :
    Steps temp v steps (ahead temp (refresh temp v).1 v.record steps) := by
  have hinc := increasing_selection hrows (refresh temp v).1
  have hfound := h.found
  rw [h.place] at hfound
  rcases place_cases hinc v.record with ⟨before, row, after, hf⟩ | ⟨before, after, hm⟩
  · rw [hf.sameAt] at hfound
    have hat : (refresh temp v).2.at = before.length := h.place.trans hf.place
    rcases Int.lt_or_gt_of_ne hsteps with hneg | hpositive
    · rw [ahead, if_neg (by omega), hf.steps.2]
      exact steps_backward hpos h.view hneg hf.split hat
    · rw [ahead, if_pos hpositive, hf.steps.1]
      have hsplit : selection temp (refresh temp v).1 = (before ++ [row]) ++ after := by
        rw [hf.split]
        simp
      exact steps_forward hpos h.view hpositive hsplit (by simp [hfound, hat])
  · rw [hm.sameAt] at hfound
    have hat : (refresh temp v).2.at = before.length := h.place.trans hm.place
    rcases Int.lt_or_gt_of_ne hsteps with hneg | hpositive
    · rw [ahead, if_neg (by omega), hm.steps.2]
      exact steps_backward hpos h.view hneg hm.split hat
    · rw [ahead, if_pos hpositive, hm.steps.1]
      exact steps_forward hpos h.view hpositive hm.split (by simp [hfound, hat])

/-! ### Where the place is known -/

/-- What a variable keeps between calls: while nothing has changed, its view is that of
the rows, and the row at its position compares equal to the record. -/
structure Seated (temp : TempTable) (v : Variable table) : Prop where
  view : v.state.viewDirty = false → v.state.viewVersion = temp.version →
    v.state.view.map temp.row = selection temp v.state
  record : v.state.viewDirty = false → v.state.viewVersion = temp.version →
    ∀ row, (selection temp v.state)[v.state.at]? = some row →
      walkOrder v.state.viewKey v.state.viewAscending row v.record = .eq

/-- The selected row that follows the record is not one of the record's key. -/
def Settled (temp : TempTable) (v : Variable table) : Prop :=
  let state := renewed temp v.state
  ∀ row, (following (walkOrder state.viewKey state.viewAscending) (selection temp state)
    v.record).head? = some row → byKey table row v.record ≠ .eq

theorem renewed_view {temp : TempTable} {v : Variable table} (h : Seated temp v) :
    (renewed temp v.state).view.map temp.row = selection temp (renewed temp v.state) := by
  unfold renewed
  split
  · exact build_view temp _
  · next hdirty =>
    split
    · exact build_view temp _
    · next hversion => exact h.view (by simpa using hdirty) (not_not.mp hversion)

/-- Where the row that follows a record is not of its key, the row at its place has its
key exactly when it compares equal. -/
theorem sameAt_key {key : List (SortField table)} {ascending : Bool} {rows : List Record}
    {x : Record} (h : Increasing (walkOrder key ascending) rows)
    (hsettled : ∀ row, (following (walkOrder key ascending) rows x).head? = some row →
      byKey table row x ≠ .eq) :
    sameAt (byKey table) rows (place (walkOrder key ascending) rows x) x =
      sameAt (walkOrder key ascending) rows (place (walkOrder key ascending) rows x) x := by
  rcases place_cases h x with ⟨before, row, after, hf⟩ | ⟨before, after, hm⟩
  · rw [hf.sameAt, sameAt, hf.getElem]
    simp [RecordOrder.ordered_of_compare hf.same]
  · rw [hm.sameAt, sameAt, hm.place, hm.split]
    cases after with
    | nil => simp
    | cons row after =>
      have hother := hsettled row (by rw [hm.steps.1]; rfl)
      simpa using hother

/-- A refresh knows the record's place. -/
theorem anchored_refresh {temp : TempTable} {v : Variable table}
    (hrows : Increasing (byKey table) temp.rows) (h : Seated temp v) (hsettled : Settled temp v) :
    Anchored temp v.record (refresh temp v).1 (refresh temp v).2 := by
  have hview := renewed_view h
  have hinc := increasing_selection hrows (renewed temp v.state)
  have hsame := sameAt_key hinc hsettled
  unfold refresh
  dsimp only
  split
  · next hstays =>
    obtain ⟨hdirty, hversion, hlt⟩ := hstays
    have hstate : renewed temp v.state = v.state := by
      rw [renewed, if_neg (by simp [hdirty]), if_neg (not_not.mpr hversion)]
    rw [hstate] at hview hlt hinc ⊢
    have hlen : v.state.at < (selection temp v.state).length := by rwa [← hview, List.length_map]
    have hrow := List.getElem?_eq_getElem hlen
    have hfound := found_at hinc hrow (h.record hdirty hversion _ hrow)
    have htake : ((selection temp v.state).take v.state.at).length = v.state.at := by
      rw [List.length_take]
      omega
    have hat : place _ _ v.record = v.state.at := hfound.place.trans htake
    exact ⟨hview, hat.symm, by rw [← hat, hfound.sameAt]⟩
  · generalize renewed temp v.state = state at hview hsame ⊢
    have hplace : Search.lowerBound
        (fun row => walkOrder state.viewKey state.viewAscending (temp.row row) v.record = .lt)
        state.view =
        place (walkOrder state.viewKey state.viewAscending) (selection temp state) v.record := by
      rw [place, ← hview, Search.lowerBound_map]
    have hany : ∀ i : Nat,
        (state.view[i]?.any fun row => byKey table (temp.row row) v.record = .eq) =
          sameAt (byKey table) (selection temp state) i v.record := by
      intro i
      rw [sameAt, ← hview, List.getElem?_map, Option.any_map]
    refine ⟨hview, hplace, ?_⟩
    rw [← hplace] at hsame
    exact (hany _).trans hsame

/-- A refresh keeps the position it found, or the end. -/
theorem refresh_at (temp : TempTable) (v : Variable table) :
    (refresh temp v).1 = {renewed temp v.state with
      «at» := if (refresh temp v).2.found then (refresh temp v).2.at
        else (renewed temp v.state).view.length} := by
  unfold refresh
  dsimp only
  split <;> rfl

end Agiru.Temporary
