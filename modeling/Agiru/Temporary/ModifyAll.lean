import Agiru.Temporary.Walk

/-! `ModifyAll` on a temporary record: a worker over the same rows walks the variable's selection and writes the
row it stands on, before each step.

The rows before the worker are written, and no longer looked at; those after it are as they were, and still
selected. So each is written once (`modifyAll_sets_selected`). -/
namespace Agiru.Temporary
open SortedRows

variable {table : TableDef} {ι : Type}
variable {temp : TempTable}
variable {v worker : Variable table}

/-- `CalcAuto`: what a read makes of the record it landed on. The FlowFields that a variable calculates by itself
take their values. -/
structure AutoCalc where
  fields : List FieldNo := []
  calculate : Record → Record := id
  others : ∀ record no, no ∉ fields → calculate record no = record no := by exact fun _ _ _ => rfl

/-- `Copy`, and `RuntimeBorrowTemporary`: the fields and the selection of a variable, without its view. -/
def copied (v : Variable table) : Variable table :=
  {v with state := {v.state with view := [], viewDirty := true}}

/-- How `ModifyAll` ends: done, or on a row that does not exist. `running` is that the turns were too few. -/
inductive ModifyAllOutcome
  | done | notFound | running
  deriving Repr, DecidableEq

/-- What `ModifyAll` made of the rows, and the records it wrote. -/
structure Modifying where
  outcome : ModifyAllOutcome
  writes : List Record
  temp : TempTable

section
variable (auto : AutoCalc) (field : FieldNo) (value : Value)

/-- A record with the field assigned. -/
def assigned (record : Record) : Record := Function.update record field value

/-- The loop of `ModifyAll`. -/
def modifyFrom : Nat → TempTable → Variable table → Modifying
  | 0, temp, _ => ⟨.running, [], temp⟩
  | turns + 1, temp, worker =>
    let worker := {worker with record := assigned field value worker.record}
    let (modified, temp) := tempModify temp table worker.record
    if !modified then ⟨.notFound, [], temp⟩
    else
      let (moved, next) := tempNext temp worker 1
      if moved = 0 then ⟨.done, [worker.record], temp⟩
      else
        let rest := modifyFrom turns temp {next with record := auto.calculate next.record}
        {rest with writes := worker.record :: rest.writes}

/-- `ModifyAll`, without triggers: the outcome, the records written and what is there afterwards. -/
def modifyAll (turns : Nat) (w : ι) (s : Sharing table ι) : ModifyAllOutcome × List Record × Sharing table ι :=
  let (found, worker) := tempFindSet s.temp (copied (s.var w))
  if !found then (.done, [], s)
  else
    let m := modifyFrom auto field value turns s.temp {worker with record := auto.calculate worker.record}
    (m.outcome, m.writes, {s with temp := m.temp})

end

/-! ### Writing one row -/

/-- The row of a key is written, and no other. -/
theorem tempModify_rows (h : Increasing (byKey table) temp.rows) {row record : Record}
    (hrow : row ∈ temp.rows) (hsame : byKey table row record = .eq) :
    tempModify temp table record =
      (true, ⟨temp.rows.map fun other => if byKey table other record = .eq then record else other,
        temp.version + 1⟩) := by
  rcases tempModify_cases h record with ⟨before, found, after, hf, hmodify⟩ | ⟨before, after, hm, -⟩
  · have hbefore : (before.map fun other => if byKey table other record = .eq then record else other) =
      before := by
      apply (List.map_congr_left ?_).trans (List.map_id _)
      intro other hother
      rw [if_neg (by rw [hf.smaller other hother]; decide), id]
    have hafter : (after.map fun other => if byKey table other record = .eq then record else other) = after := by
      apply (List.map_congr_left ?_).trans (List.map_id _)
      intro other hother
      rw [if_neg (by rw [hf.greater other hother]; decide), id]
    rw [hmodify, hf.split, List.map_append, List.map_cons, hbefore, hafter, if_pos hf.same]
  · rw [hm.split] at hrow
    rcases List.mem_append.mp hrow with hrow | hrow
    · rw [hm.smaller row hrow] at hsame
      cases hsame
    · rw [hm.greater row hrow] at hsame
      cases hsame

/-! ### The walk -/

/-- Rows of the selection are of different keys. -/
theorem chosen_once {state : RecordState table} {rows : List Record} (hrows : Increasing (byKey table) rows) :
    (chosen state rows).Pairwise fun a b => byKey table a b ≠ .eq := by
  have hmem : ∀ row ∈ chosen state rows, row ∈ rows := fun row hrow =>
    (List.mem_filter.mp (mem_stableSort.mp hrow)).1
  apply (increasing_chosen hrows state).imp_of_mem
  intro a b ha hb hlt heq
  obtain rfl := eq_of_byKey hrows (hmem a ha) (hmem b hb) heq
  rw [@Std.ReflCmp.compare_self _ (walkOrder state.key state.ascending)] at hlt
  cases hlt

/-- Other values in a standing variable, at the same place. -/
theorem Landed.assign {chosenBy : RecordState table}
    (h : Landed chosenBy temp v) (hrows : Increasing (byKey table) temp.rows) {record : Record}
    (hkept : walkOrder chosenBy.key chosenBy.ascending record v.record = .eq) :
    Landed chosenBy temp {v with record} :=
  ⟨@Landed.run table Unit _ chosenBy () ⟨temp, fun _ => v⟩ [.assign () record] h hrows (by simp [Op.Selects])
    (by simp [Sharing.changes, Sharing.step, Sharing.load])
    (by simpa [Sharing.run, Sharing.step, Sharing.load, Sharing.record] using hkept), h.current⟩

/-- And written. -/
theorem Landed.modify {chosenBy : RecordState table}
    (h : Landed chosenBy temp v) (hrows : Increasing (byKey table) temp.rows) :
    Standing chosenBy (tempModify temp table v.record).2 v :=
  @Landed.run table Unit _ chosenBy () ⟨temp, fun _ => v⟩ [.modify ()] h hrows (by simp [Op.Selects])
    (by
      simp only [Sharing.changes]
      split <;> omega)
    (by simpa [Sharing.run, Sharing.step, Sharing.load, Sharing.record] using Std.ReflCmp.compare_self)

section
variable {auto : AutoCalc} {field : FieldNo} {value : Value} {state : RecordState table}

/-- What becomes of a row that is selected. -/
def modified (auto : AutoCalc) (field : FieldNo) (value : Value) (row : Record) : Record :=
  assigned field value (auto.calculate row)

/-- Rows some of which are written. -/
def written (table : TableDef) (auto : AutoCalc) (field : FieldNo) (value : Value) (done : List Record)
    (row : Record) :
    Record :=
  if done.any fun other => byKey table other row = .eq then modified auto field value row else row

theorem written_of_mem {done : List Record} {row : Record} (h : row ∈ done) :
    written table auto field value done row = modified auto field value row := by
  rw [written, if_pos]
  rw [List.any_eq_true]
  exact ⟨row, h, by simp [Std.ReflCmp.compare_self]⟩

theorem written_of_not_mem {rows done : List Record} (hrows : Increasing (byKey table) rows)
    (hdone : ∀ other ∈ done, other ∈ rows) {row : Record} (hrow : row ∈ rows) (h : row ∉ done) :
    written table auto field value done row = row := by
  rw [written, if_neg]
  intro hany
  obtain ⟨other, hother, hsame⟩ := List.any_eq_true.mp hany
  rw [eq_of_byKey hrows (hdone other hother) hrow (decide_eq_true_iff.mp hsame)] at hother
  exact h hother

variable (hsort : ∀ column ∈ RecordOrder.columns state.key state.ascending,
  column.field.no ≠ field ∧ column.field.no ∉ auto.fields)
include hsort

/-- What is calculated or assigned leaves a record in its place. -/
theorem calc_same (row : Record) : walkOrder state.key state.ascending (auto.calculate row) row = .eq := by
  rw [walkOrder, RecordOrder.compare_eq_iff]
  intro column hcolumn
  rw [compareField_congr (auto.others row column.field.no (hsort column hcolumn).2) rfl]
  exact @Std.ReflCmp.compare_self _ (fun a b => compareField a b column.field) _ row

theorem modified_same (row : Record) :
    walkOrder state.key state.ascending (modified auto field value row) row = .eq := by
  rw [walkOrder, RecordOrder.compare_eq_iff]
  intro column hcolumn
  obtain ⟨hne, hnot⟩ := hsort column hcolumn
  have hheld : modified auto field value row column.field.no = row column.field.no := by
    rw [modified, assigned, Function.update_of_ne hne, auto.others row _ hnot]
  rw [compareField_congr hheld rfl]
  exact @Std.ReflCmp.compare_self _ (fun a b => compareField a b column.field) _ row

theorem modified_key (row : Record) : byKey table (modified auto field value row) row = .eq :=
  RecordOrder.ordered_of_compare (modified_same hsort row)

theorem written_key (done : List Record) (row : Record) :
    byKey table (written table auto field value done row) row = .eq := by
  unfold written
  split
  · exact modified_key hsort row
  · exact Std.ReflCmp.compare_self

theorem increasing_written {rows : List Record} (h : Increasing (byKey table) rows) (done : List Record) :
    Increasing (byKey table) (rows.map (written table auto field value done)) := by
  rw [Increasing, List.pairwise_map]
  apply h.imp
  intro a b hlt
  rw [Std.TransCmp.congr_left (written_key hsort done a), Std.TransCmp.congr_right (written_key hsort done b)]
  exact hlt

section
variable {rows : List Record} (hrows : Increasing (byKey table) rows) {done rest : List Record} {row : Record}
  (hchosen : chosen state rows = done ++ row :: rest)
include hrows hchosen

/-- One row more is written. -/
theorem written_step (version : UInt64) :
    tempModify ⟨rows.map (written table auto field value done), version⟩ table (modified auto field value row) =
      (true, ⟨rows.map (written table auto field value (done ++ [row])), version + 1⟩) := by
  have hin : row ∈ rows := by
    have hmem : row ∈ chosen state rows := by
      rw [hchosen]
      simp
    exact (List.mem_filter.mp (mem_stableSort.mp hmem)).1
  have hsame : byKey table (written table auto field value done row) (modified auto field value row) = .eq := by
    rw [Std.TransCmp.congr_left (written_key hsort done row)]
    exact Std.OrientedCmp.eq_comm.mp (modified_key hsort row)
  rw [tempModify_rows (increasing_written hsort hrows done) (List.mem_map_of_mem hin) hsame, List.map_map]
  congr 2
  apply List.map_congr_left
  intro other hother
  have hkey : byKey table (written table auto field value done other) (modified auto field value row) =
      byKey table other row := by
    rw [Std.TransCmp.congr_left (written_key hsort done other), Std.TransCmp.congr_right (modified_key hsort row)]
  simp only [Function.comp_apply, hkey]
  by_cases hat : byKey table other row = .eq
  · obtain rfl := eq_of_byKey hrows hother hin hat
    rw [if_pos hat, written_of_mem (by simp)]
  · have hback : byKey table row other ≠ .eq := fun heq => hat (Std.OrientedCmp.eq_comm.mp heq)
    rw [if_neg hat]
    simp [written, hback]

/-- The rows still ahead are those not yet written. -/
theorem rowsAfter_written :
    rowsAfter state (rows.map (written table auto field value (done ++ [row]))) (modified auto field value row) =
      rest := by
  have hrows' : Increasing (byKey table) (rows.map (written table auto field value (done ++ [row]))) :=
    increasing_written hsort hrows (done ++ [row])
  have hsorted := increasing_chosen hrows state
  rw [hchosen] at hsorted
  have hmem : ∀ other, other ∈ rows ∧ picked state state.filters other = true ↔ other ∈ done ++ row :: rest := by
    intro other
    rw [← hchosen, chosen, mem_stableSort, List.mem_filter]
  have hagain : done ++ row :: rest = (done ++ [row]) ++ rest := by simp
  have hwritten : ∀ other ∈ done ++ [row], other ∈ rows := by
    intro other hother
    exact ((hmem other).mpr (by rw [hagain]; exact List.mem_append_left _ hother)).1
  have hbefore : ∀ other ∈ done ++ [row], walkOrder state.key state.ascending other row ≠ .gt := by
    intro other hother
    rcases List.mem_append.mp hother with hother | hother
    · have hlt := (List.pairwise_append.mp hsorted).2.2 other hother row List.mem_cons_self
      rw [hlt]
      decide
    · obtain rfl := List.mem_singleton.mp hother
      rw [@Std.ReflCmp.compare_self _ (walkOrder state.key state.ascending)]
      decide
  have hafter : ∀ other ∈ rest, walkOrder state.key state.ascending other row = .gt := by
    intro other hother
    have hlt := (List.pairwise_cons.mp (List.pairwise_append.mp hsorted).2.1).1 other hother
    exact Std.OrientedCmp.gt_iff_lt.mpr hlt
  have hrest : Increasing (walkOrder state.key state.ascending) rest :=
    (List.pairwise_cons.mp (List.pairwise_append.mp hsorted).2.1).2
  refine eq_of_mem_iff ((increasing_chosen hrows' state).sublist List.filter_sublist) hrest fun other => ?_
  rw [rowsAfter, following, List.mem_filter, chosen, mem_stableSort, List.mem_filter, List.mem_map, decide_eq_true_iff,
    Std.TransCmp.congr_right (modified_same hsort row)]
  constructor
  · rintro ⟨⟨⟨old, hold, rfl⟩, hpicked⟩, hgt⟩
    by_cases hwas : old ∈ done ++ [row]
    · rw [written_of_mem hwas, Std.TransCmp.congr_left (modified_same hsort old)] at hgt
      exact absurd hgt (hbefore old hwas)
    · rw [written_of_not_mem hrows hwritten hold hwas] at hpicked ⊢
      have hin := (hmem old).mp ⟨hold, hpicked⟩
      rw [hagain] at hin
      exact (List.mem_append.mp hin).resolve_left hwas
  · intro hother
    obtain ⟨hin, hpicked⟩ := (hmem other).mpr (by rw [hagain]; exact List.mem_append_right _ hother)
    have hnot : other ∉ done ++ [row] := fun hwas => hbefore other hwas (hafter other hother)
    have hsame : written table auto field value (done ++ [row]) other = other :=
      written_of_not_mem hrows hwritten hin hnot
    exact ⟨⟨⟨other, hin, hsame⟩, hpicked⟩, hafter other hother⟩

/-- None of them is of the key that was written. -/
theorem key_ahead : ∀ other ∈ rest, byKey table other (modified auto field value row) ≠ .eq := by
  intro other hother heq
  rw [Std.TransCmp.congr_right (modified_key hsort row)] at heq
  have honce : (chosen state rows).Pairwise fun a b => byKey table a b ≠ .eq := chosen_once hrows
  rw [hchosen] at honce
  have hne := (List.pairwise_cons.mp (List.pairwise_append.mp honce).2.1).1 other hother
  exact hne (Std.OrientedCmp.eq_comm.mp heq)

/-- The step from a row that is written is to the next row of the selection. -/
theorem next_written {version : UInt64}
    (hstands : Landed state ⟨rows.map (written table auto field value done), version⟩ worker)
    (hrecord : worker.record = auto.calculate row) :
    let temp : TempTable := ⟨rows.map (written table auto field value (done ++ [row])), version + 1⟩
    let worker : Variable table := {worker with record := modified auto field value row}
    match rest.head? with
    | none => (tempNext temp worker 1).1 = 0
    | some next => (tempNext temp worker 1).1 = 1 ∧ (tempNext temp worker 1).2.record = next ∧
        Landed state temp (tempNext temp worker 1).2 := by
  intro temp worker'
  have hplace : walkOrder state.key state.ascending worker'.record worker.record = .eq := by
    rw [hrecord, Std.TransCmp.congr_right (calc_same hsort row)]
    exact modified_same hsort row
  have hassigned : Landed state _ worker' := hstands.assign (increasing_written hsort hrows done) hplace
  have hmodified := hassigned.modify (increasing_written hsort hrows done)
  have hrecord' : worker'.record = modified auto field value row := rfl
  rw [hrecord', written_step hsort hrows hchosen] at hmodified
  have hnext := hmodified.next (increasing_written hsort hrows (done ++ [row])) (by
    intro other hhead
    rw [hrecord', rowsAfter_written hsort hrows hchosen] at hhead
    exact key_ahead hsort hrows hchosen other (List.mem_of_head? hhead))
  rw [hrecord', rowsAfter_written hsort hrows hchosen] at hnext
  exact hnext

end

/-- The loop, from a row of the selection on: it writes that row and those after it. -/
theorem modifyFrom_writes {rows : List Record} (hrows : Increasing (byKey table) rows) (rest : List Record) :
    ∀ (done : List Record) (row : Record) (version : UInt64) (turns : Nat) (worker : Variable table),
      chosen state rows = done ++ row :: rest → rest.length < turns →
      Landed state ⟨rows.map (written table auto field value done), version⟩ worker →
      worker.record = auto.calculate row →
      modifyFrom auto field value turns ⟨rows.map (written table auto field value done), version⟩ worker =
        ⟨.done, (row :: rest).map (modified auto field value),
          ⟨rows.map (written table auto field value (done ++ row :: rest)),
            version + UInt64.ofNat (rest.length + 1)⟩⟩ := by
  induction rest with
  | nil =>
    intro done row version turns worker hchosen hturns hstands hrecord
    obtain ⟨turns, rfl⟩ : ∃ n, turns = n + 1 := ⟨turns - 1, by simp at hturns; omega⟩
    have hmoved := next_written hsort hrows hchosen hstands hrecord
    rw [modifyFrom, hrecord, show assigned field value (auto.calculate row) =
        modified auto field value row from rfl,
      written_step hsort hrows hchosen]
    dsimp only [List.head?_nil] at hmoved ⊢
    rw [if_neg (by decide), if_pos hmoved]
    rfl
  | cons next rest ih =>
    intro done row version turns worker hchosen hturns hstands hrecord
    obtain ⟨turns, rfl⟩ : ∃ n, turns = n + 1 := ⟨turns - 1, by simp at hturns; omega⟩
    have hnext := next_written hsort hrows hchosen hstands hrecord
    rw [modifyFrom, hrecord, show assigned field value (auto.calculate row) =
        modified auto field value row from rfl,
      written_step hsort hrows hchosen]
    dsimp only [List.head?_cons] at hnext ⊢
    obtain ⟨hmoved, hlanded, hthere⟩ := hnext
    rw [if_neg (by decide), if_neg (by rw [hmoved]; decide), hlanded]
    have hagain : chosen state rows = (done ++ [row]) ++ next :: rest := by simpa using hchosen
    have hcalculated := hthere.assign (increasing_written hsort hrows (done ++ [row]))
      (by rw [hlanded]; exact calc_same hsort next)
    rw [ih (done ++ [row]) next (version + 1) turns _ hagain (by simpa using hturns) hcalculated rfl]
    simp only [List.append_assoc, List.singleton_append, List.map_cons, List.length_cons]
    rw [UInt64.add_assoc, Nat.add_comm (rest.length + 1), UInt64.ofNat_add 1]
    rfl

/-- And from the first row on. -/
theorem modifyFrom_all {row : Record} {rest : List Record} {turns : Nat}
    (hrows : Increasing (byKey table) temp.rows) (hchosen : chosen state temp.rows = row :: rest)
    (hturns : rest.length < turns) (hstands : Landed state temp worker)
    (hrecord : worker.record = auto.calculate row) :
    modifyFrom auto field value turns temp worker =
      ⟨.done, (row :: rest).map (modified auto field value),
        ⟨temp.rows.map (written table auto field value (row :: rest)),
          temp.version + UInt64.ofNat (rest.length + 1)⟩⟩ := by
  obtain ⟨rows, version⟩ := temp
  have hnone : rows.map (written table auto field value []) = rows :=
    (List.map_congr_left fun row hrow => written_of_not_mem hrows (by simp) hrow (by simp)).trans (List.map_id _)
  have hwrites := modifyFrom_writes hsort hrows rest [] row version turns worker hchosen hturns
    (by rwa [hnone]) hrecord
  rwa [hnone] at hwrites

end

theorem Landed.of_copied (h : Landed (copied v).state temp worker) : Landed v.state temp worker :=
  ⟨⟨h.seated, h.positioned, h.clean, h.viewFilters, h.viewKey, h.viewAscending, h.marks, h.markedOnly⟩, h.current⟩

theorem chosen_copied (v : Variable table) (rows : List Record) : chosen (copied v).state rows =
    chosen v.state rows :=
  rfl

/-- Writing the whole selection writes what is picked. -/
theorem written_chosen {rows : List Record} (hrows : Increasing (byKey table) rows) (state : RecordState table)
    (auto : AutoCalc) (field : FieldNo) (value : Value) :
    rows.map (written table auto field value (chosen state rows)) =
      rows.map fun row => if picked state state.filters row then modified auto field value row else row := by
  apply List.map_congr_left
  intro row hrow
  have hmem : ∀ row, row ∈ chosen state rows ↔ row ∈ rows ∧ picked state state.filters row = true := by
    intro row
    rw [chosen, mem_stableSort, List.mem_filter]
  by_cases hpicked : picked state state.filters row = true
  · rw [if_pos hpicked, written_of_mem ((hmem row).mpr ⟨hrow, hpicked⟩)]
  · rw [if_neg hpicked, written_of_not_mem hrows (fun other hother => ((hmem other).mp hother).1) hrow fun h =>
      hpicked ((hmem row).mp h).2]

/-- The field set on the rows that are picked, and nothing else done to these rows but what a read calculates. -/
structure SetOnPicked (auto : AutoCalc) (field : FieldNo) (value : Value) (state : RecordState table)
    (rows rows' writes : List Record) : Prop where
  each : List.Forall₂ (fun row row' =>
    if picked state state.filters row then
      row' field = value ∧ (∀ no ∈ auto.fields, no ≠ field → row' no = auto.calculate row no) ∧
        ∀ no ∉ auto.fields, no ≠ field → row' no = row no
    else row' = row) rows rows'
  /-- The records written are those of the rows picked. -/
  written : ∀ record, record ∈ writes ↔
    ∃ row ∈ rows, picked state state.filters row = true ∧ record = modified auto field value row
  once : writes.Pairwise fun a b => byKey table a b ≠ .eq

section
variable {auto : AutoCalc} {field : FieldNo} {value : Value} {state : RecordState table} {rows : List Record}
  (hrows : Increasing (byKey table) rows)
include hrows

variable (hsort : ∀ column ∈ RecordOrder.columns state.key state.ascending,
  column.field.no ≠ field ∧ column.field.no ∉ auto.fields)
include hsort

theorem setOnPicked_modified :
    SetOnPicked auto field value state rows
      (rows.map fun row => if picked state state.filters row then modified auto field value row else row)
      ((chosen state rows).map (modified auto field value)) := by
  refine ⟨?_, ?_, ?_⟩
  · rw [List.forall₂_map_right_iff, List.forall₂_same]
    intro row _
    by_cases hpicked : picked state state.filters row = true
    · rw [if_pos hpicked, if_pos hpicked]
      refine ⟨Function.update_self .., fun no _ hne => Function.update_of_ne hne .., fun no hno hne => ?_⟩
      rw [modified, assigned, Function.update_of_ne hne, auto.others row no hno]
    · rw [if_neg hpicked, if_neg hpicked]
  · intro record
    simp only [List.mem_map, chosen, mem_stableSort, List.mem_filter, and_assoc, eq_comm]
  · rw [List.pairwise_map]
    apply (chosen_once hrows).imp
    intro a b hne heq
    rw [Std.TransCmp.congr_left (modified_key hsort a), Std.TransCmp.congr_right (modified_key hsort b)] at heq
    exact hne heq

end

/-- **`ModifyAll` writes its selection**: where the order of the walk has neither the field nor one that is
calculated by itself, each selected row once, and ends. -/
theorem modifyAll_sets_selected {ι : Type} [DecidableEq ι] (auto : AutoCalc) (field : FieldNo) (value : Value)
    (var : ι → Variable table) (ops : List (Op table ι)) (w : ι) :
    let s := Sharing.run ⟨{}, var⟩ ops
    let state := (s.var w).state
    (∀ column ∈ RecordOrder.columns state.key state.ascending,
      column.field.no ≠ field ∧ column.field.no ∉ auto.fields) →
    ∃ rows writes, SetOnPicked auto field value state s.temp.rows rows writes ∧
      ∀ turns, (chosen state s.temp.rows).length ≤ turns →
        modifyAll auto field value turns w s =
          (.done, writes, {s with temp := ⟨rows, s.temp.version + UInt64.ofNat writes.length⟩}) := by
  intro s state hsort
  have hrows : Increasing (byKey table) s.temp.rows :=
    Sharing.increasing_run (s := ⟨{}, var⟩) List.Pairwise.nil ops
  refine ⟨_, _, setOnPicked_modified hrows hsort, fun turns hturns => ?_⟩
  have hfind := findSet_stands s.temp (copied (s.var w))
  rw [chosen_copied] at hfind
  rw [← written_chosen hrows]
  cases hchosen : chosen state s.temp.rows with
  | nil =>
    have hnone : s.temp.rows.map (written table auto field value []) = s.temp.rows :=
      (List.map_congr_left fun row hrow => written_of_not_mem hrows (by simp) hrow (by simp)).trans (List.map_id _)
    rw [show chosen (s.var w).state s.temp.rows = [] from hchosen] at hfind
    dsimp only [List.head?_nil] at hfind
    simp [modifyAll, hfind, hnone]
  | cons row rest =>
    rw [show chosen (s.var w).state s.temp.rows = row :: rest from hchosen] at hfind
    obtain ⟨hfound, hlanded, hstands⟩ := hfind
    have hcalculated : Landed state s.temp {(tempFindSet s.temp (copied (s.var w))).2 with
        record := auto.calculate row} :=
      hstands.of_copied.assign hrows (by rw [hlanded]; exact calc_same hsort row)
    have hlength : rest.length < turns := by simpa [hchosen] using hturns
    simp only [modifyAll, hfound, hlanded, modifyFrom_all hsort hrows hchosen hlength hcalculated rfl]
    simp

section Examples

/-- Items, and how many there are. -/
def stocked : TableDef where
  name := Bytes.ascii "Item"
  caption := Bytes.ascii "Item"
  fields := items.fields ++
    [{no := 3, name := Bytes.ascii "Stock", caption := [], type := .integer, fieldClass := .flowField}]
  keys := [{fields := [1]}]
  sorted := by decide
  keyed := by decide
  numbered := by decide

/-- Two stocked items of the first rank, and one of the second between them. -/
def stocking : List (Op stocked Bool) :=
  [.assign false (item 1 1), .insert false, .assign false (item 2 2), .insert false, .assign false (item 3 1),
    .insert false]

def firstRank : Variable stocked where
  record := item 0 0
  state := {filters := [⟨2, 0, Bytes.ascii "1", by decide⟩]}

def stock : Sharing stocked Bool := Sharing.run ⟨{}, fun _ => firstRank⟩ stocking

/-- There are five of each. -/
def fiveEach : AutoCalc where
  fields := [3]
  calculate record := Function.update record 3 (.integer 5)
  others := fun _ _ hno => Function.update_of_ne (by simpa using hno) ..

/-- The items of the first rank are given the ninth. -/
theorem modifyAll_sets_selected_items :
    ∃ rows writes, SetOnPicked fiveEach 2 (.integer 9) (stock.var true).state stock.temp.rows rows writes ∧
      ∀ turns, (chosen (stock.var true).state stock.temp.rows).length ≤ turns →
        modifyAll fiveEach 2 (.integer 9) turns true stock =
          (.done, writes, {stock with temp := ⟨rows, stock.temp.version + UInt64.ofNat writes.length⟩}) :=
  modifyAll_sets_selected fiveEach 2 (.integer 9) (fun _ => firstRank) stocking true (by decide +kernel)

example : ((modifyAll fiveEach 2 (.integer 9) 2 true stock).2.2.temp.rows.map fun row =>
    ((row 1).number, (row 2).number)) = [(1, 9), (2, 2), (3, 9)] := by decide +kernel

/-- What a read calculates is written with the field. -/
theorem modifyAll_writes_calculated :
    (∀ column ∈ RecordOrder.columns firstRank.state.key firstRank.state.ascending, column.field.no ≠ 2) ∧
      ¬ List.Forall₂ (fun row row' : Record => ∀ no, no ≠ 2 → row' no = row no) stock.temp.rows
        (modifyAll fiveEach 2 (.integer 9) 2 true stock).2.2.temp.rows := by
  refine ⟨by decide +kernel, fun h => ?_⟩
  have hstock : stock.temp.rows.map (fun row => (row 3).number) =
      (modifyAll fiveEach 2 (.integer 9) 2 true stock).2.2.temp.rows.map fun row => (row 3).number :=
    List.forall₂_eq_eq_eq ▸ List.forall₂_map_left_iff.mpr (List.forall₂_map_right_iff.mpr
      (h.imp fun row row' hrow => by rw [hrow 3 (by decide)]))
  revert hstock
  decide +kernel

end Examples

end Agiru.Temporary
