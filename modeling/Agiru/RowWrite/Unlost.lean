import Agiru.RowWrite.Held

/-! No update is lost: a row is written over what its writer has read of it, or over what
the writer's own transaction has made of it, and a call that does not write changes nothing. -/
namespace Agiru.RowWrite
open Undo

variable {table : Table} {n : Nat} {s t : State table n} {i : Fin n}
variable {call : Call table} {row : Row table} {version : Int} {token : Option Nat}

/-! ### The row that a call leaves -/

theorem updated_version {after : Row table} (h : call.updated row version token = some after) :
    after.version = version ∧ after.owner = token := by
  cases call with
  | delete key observed => cases h
  | modify values observed | rename values oldKey observed =>
    obtain rfl := Option.some.inj h
    exact ⟨rfl, rfl⟩

/-- `ModifyRow` leaves the row at its key, whichever of the key's columns the platform owns. -/
theorem modify_key {values : FieldValues table} {observed : Int} {after : Row table}
    (hkey : row.key = keyOf values)
    (h : (Call.modify values observed).updated row version token = some after) :
    after.key = keyOf values := by
  obtain rfl := Option.some.inj h
  apply List.map_congr_left
  intro column hcolumn
  have hsame : row.fields column = values column := List.map_inj_left.mp hkey column hcolumn
  simp only [writtenAssignments]
  split
  · exact hsame
  · rfl

/-! ### Every statement keeps what the transactions hold -/

/-- The first write to a row is accepted for its version: its token is of another transaction. -/
theorem Inv.follows (h : Inv s) (htoken : ∀ t, token = some t → s.Returns i t)
    (hrow : s.row i call.key = some row)
    (hpredicate : row.writePredicate call.observedVersion token = true) (after : Option (Row table)) :
    Follows (s.drew i token).committed ((s.drew i token).effects i)
      ⟨call.key, some call.observedVersion, some row, after⟩ := by
  refine ⟨fun hnone => ?_, fun own hown => ?_, fun habsurd => by cases habsurd⟩
  · rw [drew_lastWrite] at hnone
    have hcommitted : s.committed call.key = some row := by
      rw [State.row, rowOf, hnone] at hrow
      exact hrow
    rw [drew_committed]
    refine ⟨hcommitted.symm, fun version hversion => ⟨row, rfl, ?_⟩⟩
    obtain rfl := Option.some.inj hversion
    simp only [Row.writePredicate, Bool.or_eq_true, decide_eq_true_eq, Bool.and_eq_true] at hpredicate
    rcases hpredicate with hsame | ⟨hsome, howner⟩
    · exact hsame
    · obtain ⟨drawn, rfl⟩ := Option.isSome_iff_exists.mp hsome
      have hok := (h.drew htoken).committed call.key row (by rw [drew_committed]; exact hcommitted)
      exact absurd drew_held (hok.ended drawn i howner)
  · rw [drew_lastWrite] at hown
    rw [State.row, rowOf, hown] at hrow
    exact hrow.symm

/-- What is inserted, or moved to a key, finds no row there. -/
theorem follows_none {key : Key} {effects : List (Effect table)} {after : Option (Row table)}
    (hrow : rowOf s.committed effects key = none) :
    Follows s.committed effects ⟨key, none, none, after⟩ := by
  refine ⟨fun hnone => ?_, fun own hown => ?_, fun _ => rfl⟩
  · rw [rowOf, hnone] at hrow
    exact ⟨hrow.symm, fun version hversion => by cases hversion⟩
  · rw [rowOf, hown] at hrow
    exact hrow.symm

theorem Inv.insert (h : Inv s) {values : FieldValues table} {drawn : Nat}
    (hfree : s.Free i (keyOf values)) (hrow : s.row i (keyOf values) = none)
    (htoken : s.Returns i drawn) :
    Inv ((s.drew i (some drawn)).wrote i
      [⟨keyOf values, none, none, some ⟨values, version, some drawn⟩⟩]) := by
  have hdrew : Inv (s.drew i (some drawn)) := by
    apply h.drew
    rintro t ⟨⟩
    exact htoken
  refine hdrew.write (drew_free hfree) (follows_none ?_) fun after hafter => ?_
  · exact (drew_row i (keyOf values)).trans hrow
  · obtain rfl := Option.some.inj hafter
    rw [drew_held]
    exact ⟨rfl, rfl, rfl⟩

theorem Inv.written (h : Inv s) (hfree : s.Free i call.key) (hrow : s.row i call.key = some row)
    (htoken : ∀ t, token = some t → s.Returns i t)
    (hcalled : (call.updated row version token).isSome → token.isSome)
    (hpredicate : row.writePredicate call.observedVersion token = true)
    (hmoved : ∀ after, call.updated row version token = some after → after.key ≠ call.key →
      s.Free i after.key ∧ s.row i after.key = none) :
    Inv ((s.drew i token).wrote i (call.writes row (call.updated row version token))) := by
  have hdrew := h.drew htoken
  have hfollows := h.follows htoken hrow hpredicate
  have hfree' : (s.drew i token).Free i call.key := drew_free hfree
  cases hupdated : call.updated row version token with
  | none => exact hdrew.write hfree' (hfollows none) fun after hafter => by cases hafter
  | some after =>
    obtain ⟨drawn, rfl⟩ := Option.isSome_iff_exists.mp (hcalled (by rw [hupdated]; rfl))
    have howner := (updated_version hupdated).2
    by_cases hkey : after.key = call.key
    · rw [Call.writes, if_pos hkey]
      refine hdrew.write hfree' (hfollows (some after)) fun after' hafter => ?_
      obtain rfl := Option.some.inj hafter
      rw [drew_held]
      exact ⟨hkey, howner, rfl⟩
    · rw [Call.writes, if_neg hkey]
      obtain ⟨hfreeNew, hrowNew⟩ := hmoved after hupdated hkey
      have hleft := hdrew.write hfree' (hfollows none) fun after hafter => by cases hafter
      refine hleft.write (fun j hj => ?_) (follows_none ?_) fun after' hafter => ?_
      · rw [write_lastWrite (Ne.symm hkey)]
        exact drew_free hfreeNew j hj
      · exact (write_row_other (Ne.symm hkey) i).trans ((drew_row i after.key).trans hrowNew)
      · obtain rfl := Option.some.inj hafter
        rw [write_held, drew_held]
        exact ⟨rfl, howner, rfl⟩

theorem Inv.step (h : Inv s) {action : Action table} (hstep : Step s i action t) : Inv t := by
  cases hstep with
  | begin => exact h.shrunk (List.nil_suffix ..)
  | savepoint => exact h.shrunk (List.suffix_refl _)
  | rollbackTo => exact h.shrunk (done_suffix (undo_suffix _))
  | release => exact h.shrunk (done_release_suffix _)
  | commit => exact h.commit
  | rollback => exact h.shrunk (List.nil_suffix ..)
  | insert values version token hruns hfree hrow hversion htoken =>
    exact h.insert hfree hrow htoken
  | insertNone values token hruns htoken =>
    apply h.drew
    rintro t ⟨⟩
    exact htoken
  | insertRefused => exact h.shrunk (List.suffix_refl _)
  | written call row version token hruns hfree hrow hversion htoken hcalled hpredicate hmoved =>
    exact h.written hfree hrow htoken hcalled hpredicate hmoved
  | missed call token hruns htoken => exact (h.drew htoken).shrunk (List.suffix_refl _)
  | recordConflict | noRow | refused => exact h.shrunk (List.suffix_refl _)

theorem Inv.start (h : Start s) : Inv s := by
  have hempty (i : Fin n) : s.effects i = [] := by
    rw [State.effects, h.sessions i]
    rfl
  refine ⟨fun i => ?_, fun i j key _ hi => ?_, fun i j token _ hi => ?_, fun key row hrow => ?_⟩
  · rw [hempty]
    trivial
  · rw [hempty] at hi
    exact absurd rfl hi
  · rw [hempty] at hi
    cases hi
  · refine ⟨h.key key row hrow, h.issued key row hrow, fun token => h.drawn key row token hrow, ?_⟩
    intro token i _ hheld
    rw [hempty] at hheld
    cases hheld

theorem Reached.inv (h : Reached s) : Inv s := by
  apply Reachable.invariant (fun _ hstart => Inv.start hstart) _ h
  rintro s t hs ⟨i, action, hstep⟩
  exact hs.step hstep

/-! ### What a call has done -/

/-- A call that has written: it found the row that it had read, or that its own transaction
had left, gave it a version that no row has had, and changed nothing else. -/
structure Succeeds (s t : State table n) (i : Fin n) (call : Call table)
    (after : Option (Row table)) : Prop where
  found : ∃ row, s.row i call.key = some row ∧
    (lastWrite (s.effects i) call.key = none →
      s.committed call.key = some row ∧ row.version = call.observedVersion) ∧
    ∀ own, lastWrite (s.effects i) call.key = some own → own.after = some row
  alone : ∀ j, j ≠ i → lastWrite (s.effects j) call.key = none
  version : ∀ row, after = some row → row.version ∉ s.issued
  modified : ∀ values observed row, call = .modify values observed → after = some row →
    row.key = call.key
  result : ∀ row, after = some row → t.row i row.key = some row
  left : (∀ row, after = some row → row.key ≠ call.key) → t.row i call.key = none
  others : ∀ key, key ≠ call.key → (∀ row, after = some row → row.key ≠ key) →
    t.row i key = s.row i key
  sessions : ∀ j key, j ≠ i → t.row j key = s.row j key
  committed : t.committed = s.committed

theorem wrote_sessions (writes : List (Write table)) {j : Fin n} (hj : j ≠ i) (key : Key) :
    (s.wrote i writes).row j key = s.row j key := by
  induction writes with
  | nil => rfl
  | cons w writes ih => exact (write_row_others hj).trans ih

theorem wrote_committed (writes : List (Write table)) :
    (s.wrote i writes).committed = s.committed := by
  induction writes with
  | nil => rfl
  | cons w writes ih => exact ih

theorem Inv.succeeds (h : Inv s) {after : Option (Row table)}
    (hstep : Step s i (.call call (.written after)) t) : Succeeds s t i call after := by
  cases hstep with
  | written call row version token hruns hfree hrow hversion htoken hcalled hpredicate hmoved =>
    have hfollows := h.follows htoken hrow hpredicate none
    refine ⟨⟨row, hrow, fun hnone => ?_, fun own hown => ?_⟩, hfree, fun after hafter => ?_,
      fun values observed after hcall hafter => ?_, fun after hafter => ?_, fun hleft => ?_,
      fun key hkey hother => ?_, fun j key hj => ?_, ?_⟩
    · obtain ⟨hfound, hobserved⟩ := hfollows.first ((drew_lastWrite i call.key).trans hnone)
      obtain ⟨row', hrow', hversion'⟩ := hobserved call.observedVersion rfl
      obtain rfl := Option.some.inj hrow'
      rw [drew_committed] at hfound
      exact ⟨hfound.symm, hversion'⟩
    · exact (hfollows.next own ((drew_lastWrite i call.key).trans hown)).symm
    · rw [(updated_version hafter).1]
      exact hversion
    · subst hcall
      exact modify_key (h.row_known hrow).1 hafter
    · rw [hafter, Call.writes]
      split
      · rename_i hkey
        rw [hkey]
        exact write_row_self
      · exact write_row_self
    · cases hupdated : call.updated row version token with
      | none => exact write_row_self
      | some after =>
        have hkey := hleft after hupdated
        rw [Call.writes, if_neg hkey]
        exact (write_row_other hkey i).trans write_row_self
    · cases hupdated : call.updated row version token with
      | none => exact (write_row_other (Ne.symm hkey) i).trans (drew_row i key)
      | some after =>
        rw [Call.writes]
        split
        · exact (write_row_other (Ne.symm hkey) i).trans (drew_row i key)
        · refine (write_row_other (hother after hupdated) i).trans ?_
          exact (write_row_other (Ne.symm hkey) i).trans (drew_row i key)
    · exact (wrote_sessions _ hj key).trans (drew_row j key)
    · exact (wrote_committed _).trans drew_committed

/-- A call that has not written. -/
structure Fails (s t : State table n) (i : Fin n) (call : Call table) (outcome : Outcome table) :
    Prop where
  rows : ∀ j key, t.row j key = s.row j key
  committed : t.committed = s.committed
  recordConflict : outcome = .recordConflict → (s.row i call.key).isSome
  noRow : outcome = .noRow → s.row i call.key = none

/-- A session that goes on with the log it has. -/
theorem put_row {b : Session table} (hlog : b.log = (s.sessions i).log) (j : Fin n) (key : Key) :
    (s.put i b).row j key = s.row j key := by
  have heffects : (s.put i b).effects j = s.effects j := by
    by_cases hj : j = i
    · subst hj
      rw [effects_put_self, hlog]
      rfl
    · exact effects_put_other hj
  rw [State.row, heffects]
  rfl

theorem Step.fails {outcome : Outcome table} (hstep : Step s i (.call call outcome) t)
    (houtcome : ∀ after, outcome ≠ .written after) : Fails s t i call outcome := by
  cases hstep with
  | written => exact absurd rfl (houtcome _)
  | missed call token =>
    refine ⟨fun j key => ?_, drew_committed, fun habsurd => ?_, fun habsurd => ?_⟩
    · rw [put_row (by rfl), drew_row]
    · cases habsurd
    · cases habsurd
  | recordConflict call row hruns hrow =>
    refine ⟨put_row rfl, rfl, fun _ => ?_, fun habsurd => ?_⟩
    · rw [hrow]
      rfl
    · cases habsurd
  | noRow call hruns hrow =>
    refine ⟨put_row rfl, rfl, fun habsurd => ?_, fun _ => hrow⟩
    cases habsurd
  | refused =>
    refine ⟨put_row rfl, rfl, fun habsurd => ?_, fun habsurd => ?_⟩
    · cases habsurd
    · cases habsurd

/-- A call whose statement has found no row raises `RecordConflict`, or returns no row, by
whether a row with the key is there. -/
theorem missed_ends (hruns : s.Runs i (some call)) :
    ((∃ t, Step s i (.call call .recordConflict) t) ↔ (s.row i call.key).isSome) ∧
      ((∃ t, Step s i (.call call .noRow) t) ↔ s.row i call.key = none) := by
  refine ⟨⟨?_, fun hsome => ?_⟩, ⟨?_, fun hnone => ⟨_, .noRow i call hruns hnone⟩⟩⟩
  · rintro ⟨t, hstep⟩
    exact (hstep.fails (by rintro after ⟨⟩)).recordConflict rfl
  · obtain ⟨row, hrow⟩ := Option.isSome_iff_exists.mp hsome
    exact ⟨_, .recordConflict i call row hruns hrow⟩
  · rintro ⟨t, hstep⟩
    exact (hstep.fails (by rintro after ⟨⟩)).noRow rfl

/-- In every state of a run, what a transaction has written and not undone follows from the
row that is committed; and so does what a call does next. -/
theorem writes_never_lost (hs : Reached s) :
    (∀ i w before, .write w :: before <:+ s.effects i → Follows s.committed before w) ∧
    (∀ i key row, s.row i key = some row → row.version ∈ s.issued) ∧
    (∀ i call after t, Step s i (.call call (.written after)) t → Succeeds s t i call after) ∧
    (∀ i call outcome t, Step s i (.call call outcome) t → (∀ after, outcome ≠ .written after) →
      Fails s t i call outcome) ∧
    ∀ i call, s.Runs i (some call) →
      ((∃ t, Step s i (.call call .recordConflict) t) ↔ (s.row i call.key).isSome) ∧
      ((∃ t, Step s i (.call call .noRow) t) ↔ s.row i call.key = none) := by
  have h := hs.inv
  refine ⟨fun i w before hsuffix => ?_, fun i key row hrow => (h.row_known hrow).2,
    fun i call after t => h.succeeds, fun i call outcome t => Step.fails, fun i call => missed_ends⟩
  exact ((h.sound i).suffix hsuffix).1.1

/-! ### A table of two rows -/

def names : Table := ⟨1, fun _ => false, [0]⟩

def named (name : String) (version : Int) : Row names := ⟨fun _ => some name, version, none⟩

def twoNames : State names 2 where
  committed key :=
    if key = [some "A"] then some (named "A" 1) else if key = [some "B"] then some (named "B" 2)
    else none
  issued := [1, 2]
  drawn := []
  sessions _ := {}

theorem twoNames_start : Start twoNames where
  sessions _ := rfl
  key key row hrow := by
    simp only [twoNames] at hrow
    split at hrow
    · obtain rfl := Option.some.inj hrow
      exact Eq.symm ‹_›
    · split at hrow
      · obtain rfl := Option.some.inj hrow
        exact Eq.symm ‹_›
      · cases hrow
  issued key row hrow := by
    simp only [twoNames] at hrow ⊢
    split at hrow
    · obtain rfl := Option.some.inj hrow
      simp [named]
    · split at hrow
      · obtain rfl := Option.some.inj hrow
        simp [named]
      · cases hrow
  drawn key row token hrow howner := by
    simp only [twoNames] at hrow
    split at hrow
    · obtain rfl := Option.some.inj hrow
      cases howner
    · split at hrow
      · obtain rfl := Option.some.inj hrow
        cases howner
      · cases hrow

/-- With both sessions in a transaction. -/
def twoNamesBegun : State names 2 := (twoNames.put 0 {active := true}).put 1 {active := true}

theorem twoNamesBegun_reached : Reached twoNamesBegun :=
  ⟨twoNames, twoNames_start, .tail (.single ⟨0, _, .begin 0 rfl⟩) ⟨1, _, .begin 1 rfl⟩⟩

theorem twoNamesBegun_runs : twoNamesBegun.Runs 0 none := ⟨rfl, rfl, rfl⟩

/-- One session deletes `A` while the other has deleted `B` and not committed. -/
theorem twoNames_delete : ∃ s t,
    Step twoNamesBegun 1 (.call (.delete [some "B"] 2) (.written none)) s ∧
      Step s 0 (.call (.delete [some "A"] 1) (.written none)) t ∧
        Succeeds s t 0 (.delete [some "A"] 1) none := by
  let deleted := (twoNamesBegun.drew 1 none).wrote 1 ((Call.delete [some "B"] 2).writes (named "B" 2) none)
  have hfree : twoNamesBegun.Free 1 [some "B"] := by
    rw [State.Free, Fin.forall_fin_two]
    exact ⟨fun _ => rfl, fun h => absurd rfl h⟩
  have hother : Step twoNamesBegun 1 (.call (.delete [some "B"] 2) (.written none)) deleted :=
    .written 1 (.delete [some "B"] 2) (named "B" 2) 3 none ⟨rfl, rfl, rfl⟩ hfree rfl (by decide) (by simp)
      (by simp [Call.updated]) (by simp [Row.writePredicate, named, Call.observedVersion]) (by simp [Call.updated])
  have hfree : deleted.Free 0 [some "A"] := by
    rw [State.Free, Fin.forall_fin_two]
    exact ⟨fun h => absurd rfl h, fun _ => rfl⟩
  have hstep := Step.written (s := deleted) 0 (.delete [some "A"] 1) (named "A" 1) 4 none ⟨rfl, rfl, rfl⟩ hfree rfl
    (by decide) (by simp) (by simp [Call.updated]) (by simp [Row.writePredicate, named, Call.observedVersion])
    (by simp [Call.updated])
  exact ⟨_, _, hother, hstep, (writes_never_lost (twoNamesBegun_reached.step ⟨1, _, hother⟩)).2.2.1 _ _ _ _ hstep⟩

/-- A row that is there, with the version observed, and is renamed to the key of another: the
database refuses it, which is neither a `RecordConflict` nor no row. -/
theorem rename_taken : ∃ call : Call names, Reached twoNamesBegun ∧ twoNamesBegun.Runs 0 none ∧
    (∃ row, twoNamesBegun.row 0 call.key = some row ∧ row.version = call.observedVersion) ∧
    (∃ t, Step twoNamesBegun 0 (.call call .refused) t) ∧
    ∀ outcome t, Step twoNamesBegun 0 (.call call outcome) t → outcome = .refused := by
  refine ⟨.rename (fun _ => some "B") [some "A"] 1, twoNamesBegun_reached, twoNamesBegun_runs,
    ⟨named "A" 1, rfl, rfl⟩, ⟨_, .refused 0 _ none twoNamesBegun_runs (.inl rfl)⟩,
    fun outcome t hstep => ?_⟩
  cases hstep with
  | written call row version token hruns hfree hrow hversion htoken hcalled hpredicate hmoved =>
    have hkey : [some "B"] ≠ [some "A"] := by decide
    have htaken := (hmoved _ rfl hkey).2
    cases htaken
  | missed call token hruns htoken hrow =>
    have hpredicate := (hrow (named "A" 1) rfl).2.2
    simp [Row.writePredicate, named, Call.observedVersion] at hpredicate
  | recordConflict call row hruns | noRow call hruns => cases hruns.2.2
  | refused => rfl

end Agiru.RowWrite
