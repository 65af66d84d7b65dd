import Agiru.View.Written

/-! A view reads back what it was written from.

That is so of every record whose sort fields ascend and are a declared key or none, where
every field is found by its number's name, and where every filter text is enclosed; and of
a record with at most one filter it is so only then. -/
namespace Agiru.View
open Bytes Scan Procedure

variable {table : TableDef}

/-- The filter a record has on a field, in its current group. -/
def filterOn (state : RecordState table) (no : FieldNo) : Option Bytes :=
  (state.filters.find? fun one => one.field = no ∧ one.group = state.group).map (·.text)

/-- The sort fields of a record and their directions: its own, or the primary key's. -/
def sorting (state : RecordState table) : List (FieldNo × Bool) :=
  if state.key ≠ [] then state.key.map fun one => (one.field, one.ascending)
  else table.primaryKey.map fun no => (no, true)

/-- A record that reads the view of another becomes like it in what a view carries. -/
structure RoundTrip (before state : RecordState table) : Prop where
  answer : (exec (applyView (viewOf (some state) false)) before).1 = .ok ⟨⟩
  filters : ∀ no, filterOn (exec (applyView (viewOf (some state) false)) before).2 no =
    filterOn state no
  sorting : sorting (exec (applyView (viewOf (some state) false)) before).2 = View.sorting state
  ascending : (exec (applyView (viewOf (some state) false)) before).2.ascending = state.ascending

/-- A record after calls of `SetRange` and `SetFilter`, with no filter before. -/
def narrowAll (start : RecordState table) (sets : List (Declared table × Bytes)) :
    RecordState table :=
  sets.foldl (fun state set => narrow state set.1 set.2) {start with filters := []}

/-- What those calls keep of the filters. -/
structure Narrowed (state : RecordState table) : Prop where
  group : ∀ one ∈ state.filters, one.group = state.group
  text : ∀ one ∈ state.filters, one.text ≠ []
  distinct : state.filters.Pairwise fun a b => a.field ≠ b.field

def sortFields (state : RecordState table) : List (Declared table) :=
  if state.key ≠ [] then state.key.map fun one => ⟨one.field, one.declared⟩
  else table.primaryKey.attach.map fun no => ⟨no.1, TableDef.primaryKey_declared no.2⟩

/-- What a record needs for its view to carry its sort fields. -/
structure SortCarried (state : RecordState table) : Prop where
  sorts : sortNumbers (some state) ≠ []
  named : ∀ no ∈ sortNumbers (some state), Nameable table no
  sortable : allSortable (sortFields state) = .ok true
  /-- No longer key begins with them. -/
  whole : extended (sortFields state) = sortFields state
  ascending : ∀ one ∈ state.key, one.ascending = true

/-- And its filters. -/
structure Carried (state : RecordState table) : Prop where
  sorting : SortCarried state
  named : ∀ one ∈ state.filters, Nameable table one.field
  enclosed : ∀ one ∈ state.filters, Enclosed one.text

/-! ### Narrowing -/

section Narrow
variable (state : RecordState table) (field : Declared table) (text : Bytes)

@[simp] theorem narrow_key : (narrow state field text).key = state.key := by
  unfold narrow
  split <;> rfl

@[simp] theorem narrow_ascending : (narrow state field text).ascending = state.ascending := by
  unfold narrow
  split <;> rfl

@[simp] theorem narrow_group : (narrow state field text).group = state.group := by
  unfold narrow
  split <;> rfl

/-- What narrowing makes of the filters. -/
theorem narrow_filters : (narrow state field text).filters = state.filters ∨
    (narrow state field text).filters =
      (state.filters.filter fun one => !isOn state field one) ++
        if text = [] then [] else [⟨field.1, state.group, text, field.2⟩] := by
  unfold narrow
  split
  · exact .inl rfl
  · exact .inr rfl

end Narrow

/-- A filter on another field is put at the end. -/
theorem narrow_new {state : RecordState table} {field : Declared table} {text : Bytes}
    (h : ∀ one ∈ state.filters, one.field ≠ field.1) (htext : text ≠ []) :
    (narrow state field text).filters =
      state.filters ++ [⟨field.1, state.group, text, field.2⟩] := by
  have hoff : ∀ one ∈ state.filters, isOn state field one = false := fun one hone => by
    simp [isOn, h one hone]
  have hnone : state.filters.find? (isOn state field) = none :=
    List.find?_eq_none.mpr fun one hone => by simp [hoff one hone]
  have hothers : (state.filters.filter fun one => !isOn state field one) = state.filters :=
    List.filter_eq_self.mpr fun one hone => by simp [hoff one hone]
  simp [narrow, carries, hnone, hothers, htext]

theorem Narrowed.narrow {state : RecordState table} (h : Narrowed state) (field : Declared table)
    (text : Bytes) : Narrowed (View.narrow state field text) := by
  rcases narrow_filters state field text with hsame | hnew
  · exact ⟨by simpa [hsame] using h.group, by simpa [hsame] using h.text, by simpa [hsame] using h.distinct⟩
  · refine ⟨fun one hone => ?_, fun one hone => ?_, ?_⟩
    · rw [hnew, List.mem_append] at hone
      rw [narrow_group]
      rcases hone with hold | hone
      · exact h.group one (List.mem_filter.mp hold).1
      · split at hone <;> simp_all
    · rw [hnew, List.mem_append] at hone
      rcases hone with hold | hone
      · exact h.text one (List.mem_filter.mp hold).1
      · split at hone <;> simp_all
    · rw [hnew, List.pairwise_append]
      refine ⟨h.distinct.sublist List.filter_sublist, by split <;> simp, fun a ha b hb => ?_⟩
      -- what is left of the group stands on other fields
      obtain ⟨hmem, hother⟩ := List.mem_filter.mp ha
      split at hb
      · cases hb
      · rw [List.mem_singleton.mp hb]
        simpa [isOn, h.group a hmem] using hother

theorem narrowed_narrowAll (start : RecordState table) (sets : List (Declared table × Bytes)) :
    Narrowed (narrowAll start sets) ∧ (narrowAll start sets).group = start.group := by
  have hrun : ∀ state : RecordState table, Narrowed state →
      Narrowed (sets.foldl (fun state set => narrow state set.1 set.2) state) ∧
        (sets.foldl (fun state set => narrow state set.1 set.2) state).group = state.group := by
    induction sets with
    | nil => exact fun state h => ⟨h, rfl⟩
    | cons set sets ih =>
      intro state h
      obtain ⟨hnarrowed, hgroup⟩ := ih _ (h.narrow set.1 set.2)
      exact ⟨hnarrowed, hgroup.trans (narrow_group state set.1 set.2)⟩
  exact hrun _ ⟨by simp, by simp, List.Pairwise.nil⟩

/-! ### Sort fields -/

theorem sortFields_number (state : RecordState table) :
    (sortFields state).map (·.1) = sortNumbers (some state) := by
  unfold sortFields sortNumbers
  dsimp only
  split
  · simp
  · rw [List.map_map]
    exact List.attach_map_subtype_val _

/-- The names of fields are read as fields, these fields where they are nameable. -/
theorem mapM_fieldOfView (fields : List (Declared table)) :
    ∃ read, (fields.map fun field => nameOf table false field.1).mapM (fieldOfView table) = .ok read ∧
      read.length = fields.length ∧
      (read = fields ↔ ∀ field ∈ fields, Nameable table field.1) := by
  induction fields with
  | nil => exact ⟨[], rfl, rfl, by simp⟩
  | cons field fields ih =>
    obtain ⟨read, hread, hlength, hiff⟩ := ih
    obtain ⟨first, hfirst, hname⟩ := fieldOfView_name field.2
    refine ⟨first :: read, ?_, by simp [hlength], ?_⟩
    · rw [List.map_cons, List.mapM_cons, hfirst, hread]
      rfl
    · rw [List.cons_eq_cons, hiff, List.forall_mem_cons, ← hname, Subtype.ext_iff]

/-- What sorting by some fields makes of a record. -/
def sorted (state : RecordState table) (fields : List (Declared table)) : RecordState table :=
  {selectionChanged state with key := (extended fields).map fun field => ⟨field.1, true, isSome_declared field⟩}

theorem exec_setCurrentKey {fields : List (Declared table)} (hne : fields ≠ [])
    (state : RecordState table) :
    exec (setCurrentKey fields) state =
      match allSortable fields with
      | .error e => (.error e, state)
      | .ok false => (.ok false, state)
      | .ok true => (.ok true, sorted state fields) := by
  unfold setCurrentKey
  rw [if_neg hne]
  cases hall : allSortable fields with
  | error e => rfl
  | ok all => cases all <;> rfl

/-- The written sort fields, read back. -/
theorem exec_viewSorting (state : RecordState table) :
    ∃ read : List (Declared table), read.length = (sortFields state).length ∧
      (read = sortFields state ↔ ∀ no ∈ sortNumbers (some state), Nameable table no) ∧
      ∀ s, exec (viewSorting (joined ((sortNumbers (some state)).map (nameOf table false)))) s =
        if read = [] then (.error .noSorting, s)
        else
          match allSortable read with
          | .error e => (.error e, s)
          | .ok false => (.error .notSortable, s)
          | .ok true => (.ok ⟨⟩, sorted s read) := by
  obtain ⟨read, hread, hlength, hiff⟩ := mapM_fieldOfView (sortFields state)
  have hnames : (sortFields state).map (fun field => nameOf table false field.1) =
      (sortNumbers (some state)).map (nameOf table false) := by
    rw [← sortFields_number, List.map_map]
    rfl
  have hsplit : (splitOutsideParentheses (joined ((sortNumbers (some state)).map (nameOf table false)))
      Ch.comma).filter (fun field => trim field ≠ []) =
        (sortNumbers (some state)).map (nameOf table false) := by
    by_cases hnil : sortNumbers (some state) = []
    · rw [hnil]
      rfl
    · have hparts : splitOutsideParentheses (joined ((sortNumbers (some state)).map (nameOf table false)))
          Ch.comma = (sortNumbers (some state)).map (nameOf table false) :=
        splitAll_intercalate (by rfl) (by rfl) (by simpa using hnil)
          (List.forall_mem_map.mpr fun no _ => ⟨parts_name table no 0, level_name table no⟩)
      rw [hparts, List.filter_eq_self]
      refine List.forall_mem_map.mpr fun no _ => ?_
      simpa [trim_name] using name_ne_nil table no
  refine ⟨read, hlength, ?_, fun s => ?_⟩
  · rw [hiff, ← sortFields_number, List.forall_mem_map]
  · rw [← hnames] at hsplit
    unfold viewSorting
    simp only [← hnames, hsplit, hread]
    by_cases hnil : read = []
    · rw [if_pos hnil, if_pos hnil]
      rfl
    · rw [if_neg hnil, if_neg hnil, exec_bind, exec_setCurrentKey hnil]
      cases hall : allSortable read with
      | error e => rfl
      | ok all => cases all <;> rfl

/-! ### Filters -/

/-- A term that was written is read as a filter on its field, or on the field that its name
is read as. -/
theorem exec_applyTerm (filter : FieldFilter table) :
    ∃ field : Declared table, (field.1 = filter.field ↔ Nameable table filter.field) ∧
      ∀ s, exec (applyTerm (termOf false filter)) s = (.ok ⟨⟩, narrow s field (trim filter.text)) := by
  obtain ⟨field, hfield, hname⟩ := fieldOfView_name filter.declared
  refine ⟨field, hname, fun s => ?_⟩
  have hequals : Ch.equals ∈ termOf false filter := by
    rw [termOf, List.append_assoc, List.append_assoc]
    exact List.mem_append_right _ (List.mem_append_left _ (by decide))
  unfold applyTerm
  rw [if_neg (not_not.mpr hequals), termOf_eq, (takeWhile_open table _ _).1, hfield]
  simp only [exec_modify, filterOf_open]

/-- Terms of enclosed filters on nameable fields put their filters back in order. -/
theorem exec_terms {filters : List (FieldFilter table)}
    (hnamed : ∀ one ∈ filters, Nameable table one.field)
    (henclosed : ∀ one ∈ filters, Enclosed one.text) (htext : ∀ one ∈ filters, one.text ≠ [])
    (hdistinct : filters.Pairwise fun a b => a.field ≠ b.field) {s : RecordState table}
    (hgroup : ∀ one ∈ filters, one.group = s.group)
    (hnew : ∀ a ∈ s.filters, ∀ b ∈ filters, a.field ≠ b.field) :
    ∃ t : RecordState table, exec ((filters.map (termOf false)).forM applyTerm) s = (.ok ⟨⟩, t) ∧
      t.filters = s.filters ++ filters ∧ t.key = s.key ∧ t.ascending = s.ascending ∧
        t.group = s.group := by
  induction filters generalizing s with
  | nil => exact ⟨s, rfl, (List.append_nil _).symm, rfl, rfl, rfl⟩
  | cons filter filters ih =>
    obtain ⟨field, hname, hread⟩ := exec_applyTerm filter
    have hfield : field = ⟨filter.field, filter.declared⟩ :=
      Subtype.ext (hname.mpr (hnamed filter List.mem_cons_self))
    subst hfield
    rw [(henclosed filter List.mem_cons_self).trimmed] at hread
    have hone : (narrow s ⟨filter.field, filter.declared⟩ filter.text).filters = s.filters ++ [filter] := by
      rw [narrow_new (fun one hone => hnew one hone filter List.mem_cons_self) (htext filter List.mem_cons_self)]
      simp only [← hgroup filter List.mem_cons_self]
    obtain ⟨hfirst, hrest⟩ := List.pairwise_cons.mp hdistinct
    obtain ⟨t, hexec, hfilters, hkey, hascending, htgroup⟩ :=
      ih (s := narrow s ⟨filter.field, filter.declared⟩ filter.text)
        (fun one hone => hnamed one (List.mem_cons_of_mem _ hone))
        (fun one hone => henclosed one (List.mem_cons_of_mem _ hone))
        (fun one hone => htext one (List.mem_cons_of_mem _ hone)) hrest
        (fun one hone => by rw [narrow_group]; exact hgroup one (List.mem_cons_of_mem _ hone))
        (fun a ha b hb => by
          rw [hone, List.mem_append, List.mem_singleton] at ha
          rcases ha with ha | rfl
          · exact hnew a ha b (List.mem_cons_of_mem _ hb)
          · exact hfirst b hb)
    refine ⟨t, ?_, ?_, hkey.trans (narrow_key _ _ _), hascending.trans (narrow_ascending _ _ _),
      htgroup.trans (narrow_group _ _ _)⟩
    · rw [List.map_cons, exec_forM_cons, hread]
      exact hexec
    · rw [hfilters, hone, List.append_assoc]
      rfl

/-! ### Whole views -/

def whereClauses (state : RecordState table) : List Clause :=
  if state.filters = [] then []
  else [⟨ascii "WHERE", joined (state.filters.map (termOf false))⟩]

theorem viewOf_eq {state : RecordState table} (h : Narrowed state) :
    viewOf (some state) false = orderOf state ++
      if state.filters = [] then []
      else ascii " WHERE(" ++ joined (state.filters.map (termOf false)) ++ ascii ")" := by
  have hall : state.filters.filter (fun one => one.group = state.group) = state.filters :=
    List.filter_eq_self.mpr fun one hone => by simpa using h.group one hone
  unfold viewOf orderOf
  dsimp only
  rw [hall]
  by_cases hnil : state.filters = []
  · simp [hnil]
  · simp only [List.map_eq_nil_iff, if_neg hnil]

/-- A view with enclosed filters has the clauses it was written with. -/
theorem clausesOf_enclosed {state : RecordState table} (h : Narrowed state)
    (henclosed : ∀ one ∈ state.filters, Enclosed one.text) :
    clausesOf (viewOf (some state) false) = .ok (orderClauses state ++ whereClauses state) := by
  obtain ⟨fuel, hfuel⟩ : ∃ fuel, (viewOf (some state) false).length + 1 = fuel + 2 + 3 := by
    refine ⟨(viewOf (some state) false).length - 4, ?_⟩
    have hlong : 4 ≤ (viewOf (some state) false).length := by
      rw [viewOf_eq h, orderOf, List.append_assoc, List.append_assoc, List.append_assoc,
        List.append_assoc, List.length_append]
      exact Nat.le_trans (by decide) (Nat.le_add_right _ _)
    omega
  unfold clausesOf
  rw [hfuel]
  nth_rewrite 2 [viewOf_eq h]
  rw [clausesFrom_order, whereClauses]
  by_cases hnil : state.filters = []
  · rw [if_pos hnil, if_pos hnil]
    rfl
  · have hterms : Passes weight closes 1 (joined (state.filters.map (termOf false))) ∧
        level weight (joined (state.filters.map (termOf false))) = 0 :=
      passes_intercalate (by rfl) (by rfl) (List.forall_mem_map.mpr fun one hone =>
        ⟨(term_passes (henclosed one hone)).2.1, (term_passes (henclosed one hone)).1⟩)
    have hsplit : ascii " WHERE(" ++ joined (state.filters.map (termOf false)) ++ ascii ")" =
        ascii " " ++ (ascii "WHERE" ++ Ch.openParen ::
          (joined (state.filters.map (termOf false)) ++ Ch.closeParen :: [])) := by
      rw [List.append_assoc]
      rfl
    rw [if_neg hnil, if_neg hnil, hsplit, clausesFrom_clause (fuel + 1) (by decide +kernel)
      (by decide +kernel) (by decide +kernel) hterms.1 hterms.2]
    rfl

/-- How the sort fields and the direction of a view are read, whatever follows them. -/
theorem exec_order (state s : RecordState table) (clauses : List Clause) :
    ∃ read : List (Declared table), read.length = (sortFields state).length ∧
      (read = sortFields state ↔ ∀ no ∈ sortNumbers (some state), Nameable table no) ∧
      exec ((orderClauses state ++ clauses).forM applyClause) s =
        if read = [] then (.error .noSorting, s)
        else
          match allSortable read with
          | .error e => (.error e, s)
          | .ok false => (.error .notSortable, s)
          | .ok true =>
            exec (clauses.forM applyClause) {sorted s read with ascending := state.ascending} := by
  obtain ⟨read, hlength, hiff, hread⟩ := exec_viewSorting state
  refine ⟨read, hlength, hiff, ?_⟩
  have hsorting : (applyClause ⟨ascii "SORTING",
      joined ((sortNumbers (some state)).map (nameOf table false))⟩ : Procedure ViewError (RecordState table) PUnit) =
          viewSorting (joined ((sortNumbers (some state)).map (nameOf table false))) := rfl
  have hdirection : (!sameText (trim (directionOf (some state))) (ascii "Descending")) =
      state.ascending := by
    cases hstate : state.ascending <;> simp [directionOf, hstate] <;> decide
  have horder : ∀ s : RecordState table, exec (applyClause ⟨ascii "ORDER", directionOf (some state)⟩) s =
      (.ok ⟨⟩, {s with ascending := state.ascending}) := fun s => by
    rw [← hdirection]
    rfl
  rw [orderClauses, List.cons_append, List.cons_append, List.cons_append, List.nil_append, exec_forM_cons]
  show exec ((_ :: _ :: clauses).forM applyClause) s = _
  rw [exec_forM_cons, hsorting, hread]
  by_cases hnil : read = []
  · rw [if_pos hnil, if_pos hnil]
  · rw [if_neg hnil, if_neg hnil]
    cases hall : allSortable read with
    | error e => rfl
    | ok all =>
      cases all with
      | false => rfl
      | true =>
        show exec ((_ :: clauses).forM applyClause) (sorted s read) = _
        rw [exec_forM_cons, horder]

end Agiru.View
