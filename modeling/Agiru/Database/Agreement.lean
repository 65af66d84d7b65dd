import Agiru.Database.Twins

/-! Relative navigation is the same on a temporary and on a database record.

`Next` is the call in which the two differ most: the temporary record steps in its view,
the database record in a cursor. Twins step to the same rows, and so a run whose calls
agree reads the same on both. -/
namespace Agiru.Database
open SortedRows Temporary Bytes

variable {table : TableDef}

/-! ### Next -/

/-- What the steps of a cursor take: the rows up to a count. -/
theorem stepFrom_eq (rows : List Record) (last : Option Record) (moved count : Nat) :
    stepFrom rows last moved count =
      (rows.drop (min count rows.length),
        if min count rows.length = 0 then last else rows[min count rows.length - 1]?,
        moved + min count rows.length) := by
  induction count generalizing rows last moved with
  | zero => simp [stepFrom]
  | succ count ih =>
    cases rows with
    | nil => simp [stepFrom]
    | cons row rows =>
      have hmin : min (count + 1) (row :: rows).length = min count rows.length + 1 := by
        rw [List.length_cons]
        omega
      rw [stepFrom, ih, hmin]
      refine Prod.ext rfl (Prod.ext ?_ (by simp only; omega))
      by_cases hzero : min count rows.length = 0
      · simp [hzero]
      · obtain ⟨n, hn⟩ := Nat.exists_eq_succ_of_ne_zero hzero
        simp [hn]

/-- Records that sort alike have the same rows ahead. -/
theorem rowsAhead_congr {sel : RecordState table} {a b : Record}
    (h : walkOrder sel.key sel.ascending a b = .eq) (rows : List Record) (backwards : Bool) :
    rowsAhead sel rows a backwards = rowsAhead sel rows b backwards := by
  simp only [rowsAhead, following, preceding, Std.TransCmp.congr_right h]

/-- What `Next` by one does from a row: it steps to the nearest selected row ahead. -/
def neighbour (sel : RecordState table) (rows : List Record) (record : Record) (backwards : Bool) :
    Answer × Record :=
  match (rowsAhead sel rows record backwards).head? with
  | none => (.moved 0, record)
  | some row => (.moved (if backwards then -1 else 1), row)

section Next
variable {sel : RecordState table} {temp : TempTable} {left : Record} {t : Variable table}
  {d : DatabaseVariable table} {rows : List Record} {steps : Int}

/-- The rows ahead of a row ahead are those left. -/
theorem rowsAhead_drop (hreads : Reads table rows temp) {x row : Record} {backwards : Bool} {i : Nat}
    (hi : (rowsAhead sel temp.rows x backwards)[i]? = some row) :
    rowsAhead sel temp.rows row backwards = (rowsAhead sel temp.rows x backwards).drop (i + 1) := by
  have hinc := increasing_of_distinct hreads.distinct hreads.perm sel
  cases backwards with
  | false => exact following_of_getElem hinc hi
  | true => exact preceding_of_getElem hinc hi

/-- Where a twin stands when the rows ahead of it are known. -/
theorem Twins.anchored (h : Twins sel temp left t d) (hreads : Reads table rows temp)
    (hpos : t.state.positioned = true)
    (hplace : walkOrder sel.key sel.ascending t.record left = .eq)
    (hnext : ∀ row, (rowsAfter sel temp.rows t.record).head? = some row →
      byKey table row t.record ≠ .eq) :
    Viewing sel temp (refresh temp t).1 ∧
      Anchored temp t.record (refresh temp t).1 (refresh temp t).2 := by
  have hview := viewing_renewed h.temporary h.viewing
  have hseated : Seated temp t := by
    refine ⟨fun hclean _ => ?_, fun hclean _ row hrow => ?_⟩
    · rw [(h.viewing hclean).selection, (h.viewing hclean).view]
    · rw [(h.viewing hclean).selection] at hrow
      rw [(h.viewing hclean).key, (h.viewing hclean).ascending]
      exact Std.TransCmp.eq_trans (h.seat hclean hpos row hrow) (Std.OrientedCmp.eq_comm.mp hplace)
  have hsettled : Settled temp t := by
    unfold Settled
    dsimp only
    rw [hview.selection, hview.key, hview.ascending]
    exact hnext
  refine ⟨?_, anchored_refresh hreads.increasing hseated hsettled⟩
  rw [refresh_at]
  exact hview.moved _ _

/-- A refreshed view has the record at its position, or no row. -/
theorem seat_refresh (hview : Viewing sel temp (refresh temp t).1)
    (h : Anchored temp t.record (refresh temp t).1 (refresh temp t).2) (row : Record)
    (hrow : (chosen sel temp.rows)[(refresh temp t).1.at]? = some row) :
    walkOrder sel.key sel.ascending row t.record = .eq := by
  have hfound := h.found
  rw [hview.selection, hview.key, hview.ascending, sameAt] at hfound
  have hat : (refresh temp t).1.at = if (refresh temp t).2.found then (refresh temp t).2.at
      else (refresh temp t).1.view.length := by
    rw [refresh_at]
  have hsize : (refresh temp t).1.view.length = (chosen sel temp.rows).length := by
    rw [← hview.view, List.length_map]
  cases hknown : (refresh temp t).2.found with
  | false =>
    rw [hat, hknown, if_neg Bool.false_ne_true, hsize, List.getElem?_eq_none (Nat.le_refl _)] at hrow
    cases hrow
  | true =>
    rw [hat, hknown, if_pos rfl] at hrow
    simpa [hknown, hrow] using hfound

/-- The cursor `Next` steps holds the rows ahead of the record. -/
theorem Twins.cursorFor (h : Twins sel temp left t d) (hreads : Reads table rows temp)
    (hplace : walkOrder sel.key sel.ascending t.record left = .eq) (backwards : Bool) :
    (Database.cursorFor rows d backwards).rows = rowsAhead sel temp.rows t.record backwards := by
  have hfresh : select rows (d.selects fun row =>
      d.order row d.record = if backwards then .lt else .gt) d.order backwards =
        rowsAhead sel temp.rows t.record backwards := by
    have horder : d.order = walkOrder sel.key sel.ascending := by
      rw [DatabaseVariable.order, h.database.key, h.database.ascending]
    rw [select_same hreads h.database, horder, h.record]
    cases backwards <;> simp [rowsAhead, following, preceding]
  unfold Database.cursorFor
  dsimp only
  cases hcursor : d.cursor with
  | none => exact hfresh
  | some cursor =>
    dsimp only
    split
    · next hsame =>
      rw [h.cursor cursor hcursor, hsame]
      exact (rowsAhead_congr hplace temp.rows backwards).symm
    · exact hfresh

/-- The rows ahead of a temporary record are those ahead of it in the selection. -/
theorem ahead_eq (hview : Viewing sel temp (refresh temp t).1) (hsteps : steps ≠ 0) :
    ahead temp (refresh temp t).1 t.record steps =
      rowsAhead sel temp.rows t.record (decide (steps < 0)) := by
  unfold ahead rowsAhead
  dsimp only
  rw [hview.selection, hview.key, hview.ascending]
  rcases Int.lt_or_gt_of_ne hsteps with hneg | hpositive
  · rw [if_neg (by omega), if_pos (by simpa using hneg)]
  · rw [if_pos hpositive, if_neg (by simp; omega)]

/-- What a database record answers and leaves, by the rows ahead of it. -/
theorem runtimeNext_eq {all : List Record} (hsteps : steps ≠ 0) (hpos : d.state.positioned = true)
    (hcursor : (Database.cursorFor rows d (decide (steps < 0))).rows = all) :
    runtimeNext rows d steps =
      (if steps < 0 then -((min steps.natAbs all.length : Nat) : Int)
        else (min steps.natAbs all.length : Nat),
      d.onRow ((if min steps.natAbs all.length = 0 then none
          else all[min steps.natAbs all.length - 1]?).getD d.record)
        (some ⟨all.drop (min steps.natAbs all.length), decide (steps < 0)⟩)) := by
  have hstate : {d.state with positioned := true} = d.state := by rw [← hpos]
  rw [runtimeNext, if_neg hsteps, if_neg (by simp [hpos])]
  simp only [hcursor, stepFrom_eq, Nat.zero_add, decide_eq_true_eq, DatabaseVariable.onRow, hstate]

/-- Twins step to the same row. -/
theorem Twins.next (h : Twins sel temp left t d) (hreads : Reads table rows temp) (hsteps : steps ≠ 0)
    (hagrees : t.state.positioned = d.state.positioned ∧ (t.state.positioned = true →
      walkOrder sel.key sel.ascending t.record left = .eq ∧
      ∀ row, (rowsAfter sel temp.rows t.record).head? = some row →
        byKey table row t.record ≠ .eq)) :
    (tempNext temp t steps).1 = (runtimeNext rows d steps).1 ∧
      Twins sel temp (tempNext temp t steps).2.record (tempNext temp t steps).2
        (runtimeNext rows d steps).2 := by
  obtain ⟨hboth, hwhere⟩ := hagrees
  cases hpos : t.state.positioned with
  | false =>
    rw [hpos] at hboth
    have ht : tempNext temp t steps = (0, t) := by
      rw [tempNext, if_neg hsteps, if_pos (by simp [hpos])]
    have hd : runtimeNext rows d steps = (0, d) := by
      rw [runtimeNext, if_neg hsteps, if_pos (by simp [← hboth])]
    rw [ht, hd]
    refine ⟨rfl, h.record, h.temporary, h.database, h.positioned, h.viewing,
      fun _ hp => by simp [hpos] at hp, fun c hc => ?_, h.closed⟩
    rw [h.closed hboth.symm] at hc
    cases hc
  | true =>
    obtain ⟨hplace, hnext⟩ := hwhere hpos
    obtain ⟨hview, hanchored⟩ := h.anchored hreads hpos hplace hnext
    have htemp := steps_ahead hsteps hpos hreads.increasing hanchored
    rw [ahead_eq hview hsteps] at htemp
    have hdata := runtimeNext_eq hsteps (hboth.symm.trans hpos)
      (h.cursorFor hreads hplace (decide (steps < 0)))
    generalize hahead : rowsAhead sel temp.rows t.record (decide (steps < 0)) = all at htemp hdata
    rw [htemp.answer, hdata]
    refine ⟨rfl, ?_⟩
    by_cases hzero : min steps.natAbs all.length = 0
    · have hseat := seat_refresh hview hanchored
      rw [htemp.stays hzero, if_pos hzero, Option.getD_none, hzero, List.drop_zero, h.record]
      refine ⟨rfl, hview.same, {h.database with}, fun _ => rfl, fun _ => hview,
        fun _ _ row hrow => ?_, fun c hc => ?_, fun hnot => by cases hnot⟩
      · exact hseat row hrow
      · cases hc
        exact hahead.symm
    · obtain ⟨i, row, hrow, hi, hlands⟩ := htemp.lands hzero
      rw [hview.selection] at hi
      have hrecord : (land temp (refresh temp t).1 i).record = row :=
        land_record hanchored.view (by rw [hview.selection, hi])
      rw [hlands, if_neg hzero, hrow, Option.getD_some, hrecord]
      refine twins_landed hview h.database hi fun c hc => ?_
      cases hc
      have hcount : min steps.natAbs all.length - 1 + 1 = min steps.natAbs all.length := by omega
      rw [← hahead] at hrow
      rw [rowsAhead_drop hreads hrow, hahead, hcount]

/-- From a known place `Next` by one lands on the nearest row ahead. -/
theorem Twins.next_one (h : Twins sel temp left t d) (hreads : Reads table rows temp)
    (hone : steps = 1 ∨ steps = -1) (hpos : t.state.positioned = true)
    (hplace : walkOrder sel.key sel.ascending t.record left = .eq)
    (hnext : ∀ row, (rowsAfter sel temp.rows t.record).head? = some row →
      byKey table row t.record ≠ .eq) :
    (.moved (tempNext temp t steps).1, (tempNext temp t steps).2.record) =
      neighbour sel temp.rows t.record (decide (steps < 0)) := by
  obtain ⟨hview, hanchored⟩ := h.anchored hreads hpos hplace hnext
  have hsteps : steps ≠ 0 := by omega
  have htemp := steps_ahead hsteps hpos hreads.increasing hanchored
  rw [ahead_eq hview hsteps] at htemp
  have habs : steps.natAbs = 1 := by omega
  unfold neighbour
  cases hahead : rowsAhead sel temp.rows t.record (decide (steps < 0)) with
  | nil =>
    rw [hahead] at htemp
    rw [htemp.answer, htemp.stays (by simp)]
    simp
  | cons row rest =>
    rw [hahead] at htemp
    have hmin : min steps.natAbs (row :: rest).length = 1 := by simp [habs]
    obtain ⟨i, other, hother, hi, hlands⟩ := htemp.lands (by omega)
    rw [hmin] at hother
    cases hother
    rw [htemp.answer, hlands, land_record hanchored.view hi, hmin]
    simp

end Next

/-! ### Runs -/

section Run
variable {sel : RecordState table} {temp : TempTable} {left : Record} {t : Variable table}
  {d : DatabaseVariable table} {rows : List Record}

theorem Twins.find (h : Twins sel temp left t d) (hreads : Reads table rows temp) {which : Bytes}
    (hagrees : chosen sel temp.rows ≠ [] ∨
      ∀ c ∈ (which.dropWhile relative).head?, c = Ch.minus ∨ c = Ch.plus) :
    (tempFind temp t which).1 = (runtimeFind rows d which).1 ∧
      Twins sel temp
        (if (Answer.ofFind (tempFind temp t which).1).raises then left
          else (tempFind temp t which).2.record)
        (tempFind temp t which).2 (runtimeFind rows d which).2 := by
  unfold tempFind runtimeFind
  dsimp only
  by_cases hempty : which = []
  · rw [if_pos hempty]
    refine h.findFrom hreads (fun hnil => by cases hnil) (Nat.le_refl _) (.inr ?_)
    simp [relative]
  · rw [if_neg hempty]
    exact h.findFrom hreads (fun hnil => absurd hnil hempty) (Nat.le_refl _) hagrees

/-- When a `Next` agrees, by the selection of the twins. -/
theorem Twins.agrees_next (h : Twins sel temp left t d) {steps : Int}
    (hagrees : Agrees temp left t d (.next steps)) (hsteps : steps ≠ 0) :
    t.state.positioned = d.state.positioned ∧ (t.state.positioned = true →
      walkOrder sel.key sel.ascending t.record left = .eq ∧
      ∀ row, (rowsAfter sel temp.rows t.record).head? = some row →
        byKey table row t.record ≠ .eq) := by
  have hwhere := hagrees.resolve_left hsteps
  rwa [rowsAfter, h.temporary.chosen, h.temporary.key, h.temporary.ascending] at hwhere

/-- **One call** that agrees answers alike on twins and keeps them twins. -/
theorem Twins.step (h : Twins sel temp left t d) (hreads : Reads table rows temp) {call : Call}
    (hagrees : Agrees temp left t d call) :
    (tempCall temp call t).1 = (databaseCall rows call d).1 ∧
      Twins sel temp
        (if call.moves ∧ !(tempCall temp call t).1.raises then (tempCall temp call t).2.record else left)
        (tempCall temp call t).2 (databaseCall rows call d).2 := by
  cases call with
  | findSet =>
    obtain ⟨hanswer, htwins⟩ := h.findSet hreads
    exact ⟨congrArg Answer.found hanswer, htwins⟩
  | find which =>
    simp only [Agrees, h.temporary.chosen] at hagrees
    obtain ⟨hanswer, htwins⟩ := h.find hreads hagrees
    refine ⟨congrArg Answer.ofFind hanswer, ?_⟩
    cases hraises : (Answer.ofFind (tempFind temp t which).1).raises <;>
      simpa [tempCall, databaseCall, Call.moves, hraises] using htwins
  | get key =>
    obtain ⟨hanswer, htwins⟩ := h.get hreads hagrees key
    exact ⟨hanswer.symm, htwins⟩
  | setPosition key => exact ⟨rfl, h.setPosition key _⟩
  | next steps =>
    by_cases hzero : steps = 0
    · subst hzero
      exact ⟨rfl, h⟩
    obtain ⟨hanswer, htwins⟩ := h.next hreads hzero (h.agrees_next hagrees hzero)
    refine ⟨congrArg Answer.moved hanswer, ?_⟩
    simpa [tempCall, databaseCall, Call.moves, Answer.raises, hzero] using htwins

/-- A run of calls that agree reads the same on twins. -/
theorem Twins.run (h : Twins sel temp left t d) (hreads : Reads table rows temp) {calls : List Call}
    (hagrees : AllAgree temp rows left t d calls) :
    tempTrace temp t calls = databaseTrace rows d calls := by
  induction calls generalizing left t d with
  | nil => rfl
  | cons call calls ih =>
    obtain ⟨hcall, hrest⟩ := hagrees
    obtain ⟨hanswer, htwins⟩ := h.step hreads hcall
    simp only [tempTrace, databaseTrace, ih htwins hrest, hanswer, htwins.record]

/-- A `Get` that finds its row gives a database record its position. -/
theorem positioned_of_get {key : Record} (h : (databaseCall rows (.get key) d).1 = .found true) :
    (databaseCall rows (.get key) d).2.state.positioned = true := by
  simp only [databaseCall, runtimeGet] at h ⊢
  split at h
  · cases h
  · next hkeys =>
    rw [if_neg hkeys]
    split at h
    · cases h
    · rfl

/-- In such a run a `Next` by one right after a `Get` lands beside the key. -/
theorem Twins.beside (h : Twins sel temp left t d) (hreads : Reads table rows temp)
    {calls : List Call} (hagrees : AllAgree temp rows left t d calls) {i : Nat} {key : Record}
    {steps : Int} (hget : calls[i]? = some (.get key)) (hnext : calls[i + 1]? = some (.next steps))
    (hone : steps = 1 ∨ steps = -1) {row : Record}
    (hfound : (tempTrace temp t calls)[i]? = some (.found true, row)) :
    (tempTrace temp t calls)[i + 1]? = some (neighbour sel temp.rows row (decide (steps < 0))) := by
  induction calls generalizing left t d i with
  | nil => cases hget
  | cons call calls ih =>
    obtain ⟨hcall, hrest⟩ := hagrees
    obtain ⟨hanswer, htwins⟩ := h.step hreads hcall
    cases i with
    | succ i =>
      rw [tempTrace] at hfound ⊢
      exact ih htwins hrest hget hnext hfound
    | zero =>
      obtain rfl : call = .get key := Option.some_inj.mp hget
      cases calls with
      | nil => cases hnext
      | cons next calls =>
        obtain rfl : next = .next steps := Option.some_inj.mp hnext
        have hpair := Option.some_inj.mp hfound
        have hrecord : (tempCall temp (.get key) t).2.record = row := congrArg Prod.snd hpair
        have hpos := positioned_of_get (hanswer.symm.trans (congrArg Prod.fst hpair))
        obtain ⟨hboth, hwhere⟩ := htwins.agrees_next hrest.1 (by omega)
        obtain ⟨hplace, hkey⟩ := hwhere (hboth.trans hpos)
        have hlands := htwins.next_one hreads hone (hboth.trans hpos) hplace hkey
        rw [← hrecord, ← hlands]
        rfl

end Run

/-! ### From the start -/

/-- A temporary table of some rows, whatever has been done to it. -/
def tableOf (table : TableDef) (rows : List Record) (version : UInt64) : TempTable where
  rows := stableSort (byKey table) rows
  version

/-- A record variable with a selection, that no call has moved. -/
def fresh (sel : RecordState table) (record : Record) : DatabaseVariable table where
  record := record
  state := {sel with viewDirty := true, positioned := false}

/-- **Temporary and database records navigate alike**, over the same rows and from the same
selection, in every run whose calls agree; and a `Next` by one after a `Get` lands beside
the key. -/
theorem navigation_agrees (rows : List Record) (hrows : Distinct table rows) (version : UInt64)
    (sel : RecordState table) (record : Record) (calls : List Call) :
    let temp := tableOf table rows version
    let v := fresh sel record
    AllAgree temp rows record v.toVariable v calls →
    tempTrace temp v.toVariable calls = databaseTrace rows v calls ∧
      ∀ i key (steps : Int) row, calls[i]? = some (.get key) → calls[i + 1]? = some (.next steps) →
        steps = 1 ∨ steps = -1 →
        (tempTrace temp v.toVariable calls)[i]? = some (.found true, row) →
        (tempTrace temp v.toVariable calls)[i + 1]? =
          some (neighbour sel temp.rows row (decide (steps < 0))) := by
  intro temp v hagrees
  have hreads : Reads table rows temp :=
    ⟨hrows, (List.perm_insertionSort _ _).symm, increasing_stableSort hrows⟩
  have htwins : Twins sel temp record v.toVariable v :=
    ⟨rfl, ⟨rfl, rfl, rfl, rfl, rfl⟩, ⟨rfl, rfl, rfl, rfl, rfl⟩, fun hp => (by cases hp),
      fun hclean => (by cases hclean), fun hclean => (by cases hclean), fun _ hc => (by cases hc), fun _ => rfl⟩
  exact ⟨htwins.run hreads hagrees, fun i key steps row hget hnext hone hfound =>
    htwins.beside hreads hagrees hget hnext hone hfound⟩

section Examples

def three : List Record := [item 2 20, item 1 30, item 3 10]

def start (key : List (SortField items)) : DatabaseVariable items := fresh {key} (item 0 0)

def tempRun (key : List (SortField items)) (rows : List Record) (calls : List Call) :
    List (Answer × Record) := tempTrace (tableOf items rows 0) (start key).toVariable calls

def databaseRun (key : List (SortField items)) (rows : List Record) (calls : List Call) :
    List (Answer × Record) := databaseTrace rows (start key) calls

/-- A walk to the end and back, with a `Get` of the row it stands on. -/
theorem navigation_agrees_on_three :
    (tempRun [] three [.findSet, .next 1, .get (item 2 0), .next 1, .next (-5)]).map (·.1) =
        [.found true, .moved 1, .found true, .moved 1, .moved (-2)] ∧
      tempRun [] three [.findSet, .next 1, .get (item 2 0), .next 1, .next (-5)] =
        databaseRun [] three [.findSet, .next 1, .get (item 2 0), .next 1, .next (-5)] := by
  have hthree : Distinct items three := by
    unfold Distinct
    decide +kernel
  exact ⟨by decide +kernel, (navigation_agrees three hthree 0 {} (item 0 0) _ (by decide +kernel)).1⟩

/-- A `Get` gives a temporary record no position, and leaves it the one it had; a position
assigned under another key is lost to a row of its own key; and a character that is not
declared raises on the database record alone where no row is selected. -/
theorem navigation_differs :
    tempRun [] three [.get (item 2 0), .next 1] ≠ databaseRun [] three [.get (item 2 0), .next 1] ∧
    tempRun [] three [.findSet, .get (item 3 0), .next 1] ≠
      databaseRun [] three [.findSet, .get (item 3 0), .next 1] ∧
    tempRun [⟨2, true, rfl⟩] three [.setPosition (item 3 0), .next 1] ≠
      databaseRun [⟨2, true, rfl⟩] three [.setPosition (item 3 0), .next 1] ∧
    tempRun [] [] [.find (ascii "x")] ≠ databaseRun [] [] [.find (ascii "x")] := by
  -- the answers, and the first field of the record each leaves
  have hdiffer : ∀ {a b : List (Answer × Record)},
      (a.map fun p => (p.1, p.2 1)) ≠ b.map (fun p => (p.1, p.2 1)) → a ≠ b := by
    intro a b hne heq
    exact hne (by rw [heq])
  exact ⟨hdiffer (by decide +kernel), hdiffer (by decide +kernel), hdiffer (by decide +kernel),
    hdiffer (by decide +kernel)⟩

end Examples

end Agiru.Database
