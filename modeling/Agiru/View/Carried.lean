import Agiru.Temporary.Rows
import Agiru.View.RoundTrip

/-! When a view reads back what it was written from.

A record's view carries what it sorts by and filters on where the record is `Carried`. A
record with one filter at most has to be: a filter text that closes its own clause, or
that a comma divides, is read as shorter texts, and none of them is the text. -/
namespace Agiru.View
open Bytes Scan Procedure
open Ch

variable {table : TableDef}
variable {state : RecordState table}
variable {clauses : List Clause} {filter : FieldFilter table}

/-- A record without filters and sort fields. -/
def cleared (s : RecordState table) : RecordState table :=
  {selectionChanged s with filters := [], key := [], ascending := true}

theorem exec_applyView (state s : RecordState table) :
    exec (applyView (viewOf (some state) false)) s =
      match clausesOf (viewOf (some state) false) with
      | .error e => (.error e, cleared s)
      | .ok clauses => exec (clauses.forM applyClause) (cleared s) := by
  have hview : trim (viewOf (some state) false) ≠ [] := by
    have hmem : (86 : UInt8) ∈ viewOf (some state) false := by
      have hfirst : (86 : UInt8) ∈ ascii "VERSION(1) SORTING(" := by decide
      unfold viewOf
      dsimp only
      split <;> simp [hfirst]
    exact trim_ne_nil hmem (by decide)
  unfold applyView
  rw [exec_bind]
  simp only [exec_modify, if_neg hview]
  cases clausesOf (viewOf (some state) false) <;> rfl

/-! ### Reading the sort fields -/

theorem sorting_ascending (h : ∀ one ∈ state.key, one.ascending = true) :
    sorting state = (sortFields state).map fun field => (field.1, true) := by
  unfold sorting sortFields
  split
  · rw [List.map_map]
    exact List.map_congr_left fun one hone => by simp [h one hone]
  · rw [List.map_map]
    conv_lhs => rw [← List.attach_map_subtype_val table.primaryKey, List.map_map]
    rfl

theorem sorting_number (state : RecordState table) :
    (sorting state).map (·.1) = sortNumbers (some state) := by
  unfold sorting sortNumbers
  dsimp only
  split
  · rw [List.map_map]
    rfl
  · rw [List.map_map]
    exact List.map_id _

theorem sorting_sorted {fields : List (Declared table)} (hne : extended fields ≠ [])
    {t : RecordState table} (hkey : t.key = (extended fields).map fun field => ⟨field.1, true, field.2⟩) :
    sorting t = (extended fields).map fun field => (field.1, true) := by
  rw [sorting, hkey, if_pos (by simpa using hne), List.map_map]
  rfl

/-- A key that contributes all its fields begins with those it was found by. -/
theorem extended_begins (fields : List (Declared table)) :
    fields.map (·.1) <+: (extended fields).map (·.1) := by
  unfold extended
  split
  · exact List.prefix_rfl
  · next key hkey =>
    have hfound := List.find?_some hkey
    rw [Bool.and_eq_true, List.isPrefixOf_iff_prefix] at hfound
    have hnumbers : (key.1.fields.attach.map fun no =>
        (⟨no.1, TableDef.key_declared key.2 no.2⟩ : Declared table)).map (·.1) = key.1.fields := by
      rw [List.map_map]
      exact List.attach_map_subtype_val _
    rw [hnumbers]
    exact hfound.2

/-- Narrowing keeps all that a view carries but the filters. -/
theorem applyTerm_keeps (term : Bytes) (s : RecordState table) :
    (exec (applyTerm term) s).2.key = s.key ∧ (exec (applyTerm term) s).2.ascending = s.ascending ∧
      (exec (applyTerm term) s).2.group = s.group := by
  unfold applyTerm
  split
  · exact ⟨rfl, rfl, rfl⟩
  · split
    · exact ⟨rfl, rfl, rfl⟩
    · exact ⟨narrow_key _ _ _, narrow_ascending _ _ _, narrow_group _ _ _⟩

theorem exec_where {s : RecordState table} (h : Narrowed state)
    (hnamed : ∀ one ∈ state.filters, Nameable table one.field)
    (henclosed : ∀ one ∈ state.filters, Enclosed one.text) (hgroup : s.group = state.group)
    (hs : s.filters = []) :
    ∃ t : RecordState table, exec ((whereClauses state).forM applyClause) s = (.ok ⟨⟩, t) ∧
      t.filters = state.filters ∧ t.key = s.key ∧ t.ascending = s.ascending ∧ t.group = s.group := by
  unfold whereClauses
  by_cases hnil : state.filters = []
  · rw [if_pos hnil]
    exact ⟨s, rfl, hs.trans hnil.symm, rfl, rfl, rfl⟩
  · obtain ⟨t, hexec, hfilters, hkept⟩ := exec_terms hnamed henclosed h.text h.distinct
      (fun one hone => (h.group one hone).trans hgroup.symm) (s := s) (by simp [hs])
    refine ⟨t, ?_, by rw [hfilters, hs, List.nil_append], hkept⟩
    have hsplit : splitOutsideParentheses (joined (state.filters.map (termOf false))) comma =
        state.filters.map (termOf false) :=
      splitAll_intercalate (by rfl) (by rfl) (by simpa using hnil) (List.forall_mem_map.mpr
        fun one hone => ⟨(term_passes (henclosed one hone)).2.2, (term_passes (henclosed one hone)).1⟩)
    have hclause : exec (applyClause ⟨ascii "WHERE", joined (state.filters.map (termOf false))⟩) s =
        (.ok ⟨⟩, t) := by
      rw [← hsplit] at hexec
      exact hexec
    rw [if_neg hnil, exec_forM_cons, hclause]
    rfl

/-- **A carried record reads back.** -/
theorem roundTrip_of_carried {before : RecordState table} (h : Narrowed state)
    (hgroup : before.group = state.group) (hcarried : Carried state) : RoundTrip before state := by
  obtain ⟨read, hlength, hiff, hexec⟩ := exec_order state (cleared before) (whereClauses state)
  have hread : read = sortFields state := hiff.mpr hcarried.sorting.named
  have hne : sortFields state ≠ [] := fun hnil => hcarried.sorting.sorts (by
    rw [← sortFields_number, hnil]
    rfl)
  subst hread
  obtain ⟨t, hwhere, hfilters, hkey, hascending, htgroup⟩ :=
    exec_where h hcarried.named hcarried.enclosed
      (s := {sorted (cleared before) (sortFields state) with ascending := state.ascending}) hgroup rfl
  rw [if_neg hne, hcarried.sorting.sortable] at hexec
  have hrun : exec (applyView (viewOf (some state) false)) before = (.ok ⟨⟩, t) := by
    rw [exec_applyView, clausesOf_enclosed h hcarried.enclosed]
    exact hexec.trans hwhere
  refine ⟨by rw [hrun], fun no => ?_, ?_, by rw [hrun]; exact hascending⟩
  · have hsame : t.group = state.group := htgroup.trans hgroup
    rw [hrun, filterOn, filterOn, hfilters, hsame]
  · rw [hrun, sorting_sorted (by rw [hcarried.sorting.whole]; exact hne) hkey,
      hcarried.sorting.whole, sorting_ascending hcarried.sorting.ascending]

/-! ### A record with one filter -/

/-- A text that never closes the clause around it stays inside. -/
theorem level_pos {depth : Int} {text : Bytes} (h : Passes weight closes depth text) (hpos : 0 < depth) :
    0 < depth + level weight text := by
  induction text generalizing depth with
  | nil => simpa using hpos
  | cons c text ih =>
    obtain ⟨hc, htext⟩ := h
    rw [level_cons, ← Int.add_assoc]
    refine ih htext ?_
    unfold weight at hc ⊢
    split
    · omega
    · split
      · next hopen hclose =>
        rw [if_neg hopen, if_pos hclose, closes, hclose] at hc
        have hne : depth + -1 ≠ 0 := by simpa using hc
        omega
      · omega

theorem filterOf_length {term : Bytes} (h : equals ∈ term) :
    (filterOf term).length < term.length := by
  have hvalue : (trim ((term.dropWhile (· ≠ equals)).drop 1)).length < term.length := by
    have hne : term.dropWhile (· ≠ equals) ≠ [] := fun hnil => by
      simpa using List.dropWhile_eq_nil_iff.mp hnil _ h
    have hdrop := (List.dropWhile_suffix (l := term) (· ≠ equals)).length_le
    have hpos := List.length_pos_iff.mpr hne
    have htrim := trim_length_le ((term.dropWhile (· ≠ equals)).drop 1)
    rw [List.length_drop] at htrim
    omega
  unfold filterOf
  dsimp only
  split
  · exact hvalue
  · next opened hopened =>
    split
    · have hsuffix := (List.dropWhile_suffix (l := trim ((term.dropWhile (· ≠ equals)).drop 1))
        (· ≠ openParen)).length_le
      have htrim := trim_length_le opened.dropLast
      rw [hopened, List.length_cons] at hsuffix
      rw [List.length_dropLast] at htrim
      omega
    · exact hvalue

/-- The filter of a term that breaks off inside the text, at `text`. -/
theorem filterOf_broken (table : TableDef) (no : FieldNo) (text : Bytes) :
    (filterOf (openOf table no ++ text)).length ≤ text.length ∨
      ∃ part, part <+: text ∧ filterOf (openOf table no ++ text) = ascii "FILTER(" ++ part := by
  have hvalue : trim (ascii "FILTER(" ++ text) = ascii "FILTER(" ++ text.rdropWhile isSpace := by
    have hfront : (ascii "FILTER(" ++ text).dropWhile isSpace = ascii "FILTER(" ++ text := rfl
    rw [trim, hfront, List.rdropWhile, List.reverse_append, List.dropWhile_append]
    split
    · next hempty =>
      rw [List.rdropWhile, List.isEmpty_iff.mp hempty]
      rfl
    · rw [List.reverse_append, List.reverse_reverse, List.rdropWhile]
  have hdrop : (ascii "=FILTER(" ++ text).drop 1 = ascii "FILTER(" ++ text := rfl
  have hopened : (ascii "FILTER(" ++ text.rdropWhile isSpace).dropWhile (· ≠ openParen) =
      openParen :: text.rdropWhile isSpace := rfl
  have hfront : text.rdropWhile isSpace <+: text := List.rdropWhile_prefix isSpace text
  unfold filterOf
  simp only [(takeWhile_open table no _).2, hdrop, hvalue, hopened]
  split
  · left
    have htrim := trim_length_le (text.rdropWhile isSpace).dropLast
    have hlength := hfront.length_le
    rw [List.length_dropLast] at htrim
    omega
  · exact .inr ⟨_, hfront, rfl⟩

section Broken
variable {text before after : Bytes} {c : UInt8} (htext : text = before ++ c :: after)
  (hc : c = comma ∨ c = closeParen) (hpass : Passes weight closes 2 before)
  (hlevel : level weight before = -1)
include htext hc hpass hlevel

/-- A text that breaks where it has closed its own parentheses is not that of a term that
breaks off inside it. -/
theorem filterOf_ne (table : TableDef) (no : FieldNo) {front : Bytes} (hfront : front <+: before) :
    filterOf (openOf table no ++ front) ≠ text := by
  intro heq
  rcases filterOf_broken table no front with hlength | ⟨part, hpart, hfilter⟩
  · have hshort := hfront.length_le
    rw [heq, htext, List.length_append, List.length_cons] at hlength
    omega
  · rw [hfilter, htext] at heq
    rcases List.append_eq_append_iff.mp heq with ⟨rest, hbefore, hrest⟩ | ⟨rest, hopen, hrest⟩
    · -- the text would begin with what a term begins with, and so go one parenthesis deeper
      have hdeep : rest <+: before :=
        (List.prefix_append rest (c :: after)).trans (hrest ▸ hpart.trans hfront)
      obtain ⟨tail, htail⟩ := hdeep
      rw [← htail, passes_append] at hpass
      have hpos := level_pos hpass.1 (by decide)
      have hopened : level weight (ascii "FILTER(") = 1 := by decide
      rw [hbefore, level_append, hopened] at hlevel
      omega
    · cases rest with
      | nil =>
        have hopened : level weight (ascii "FILTER(") = 1 := by decide
        rw [List.append_nil] at hopen
        rw [hopen, hlevel] at hopened
        cases hopened
      | cons d rest =>
        have hmem : c ∈ ascii "FILTER(" := by
          rw [List.cons_append, List.cons_eq_cons] at hrest
          rw [hopen, hrest.1]
          exact List.mem_append_right _ List.mem_cons_self
        rcases hc with rfl | rfl
        · exact absurd hmem (by decide)
        · exact absurd hmem (by decide)

/-- Nor of any term of the clause that it breaks. -/
theorem terms_miss (table : TableDef) (no : FieldNo) (rest : Bytes)
    (hrest : rest = [] ∨ (rest.length ≤ after.length + 2 ∧ rest.head? = some comma)) :
    ∀ term ∈ splitOutsideParentheses (openOf table no ++ (before ++ rest)) comma,
      equals ∈ term → filterOf term ≠ text := by
  obtain ⟨hopen, -, hparts⟩ := open_passes table no
  have hlater : ∀ {later : Bytes}, later.length ≤ text.length → ∀ {depth : Int},
      ∀ term ∈ splitAll weight (parts comma) depth [] later, equals ∈ term →
        filterOf term ≠ text := by
    intro later hlater depth term hterm hequals heq
    have hshort := filterOf_length hequals
    have hpart := splitAll_length term hterm
    rw [heq] at hshort
    simp only [List.length_nil] at hpart
    omega
  have hlength : text.length = before.length + after.length + 1 := by
    rw [htext, List.length_append, List.length_cons]
    omega
  rw [splitOutsideParentheses, splitAll_append hparts, hopen]
  rcases @passes_or_stops _ weight (parts comma) (0 + 1) before with
    hall | ⟨front, d, back, rfl, hfront, hstop⟩
  · rcases hrest with rfl | ⟨hrest, hcomma⟩
    · rw [List.append_nil, splitAll_passes hall]
      intro term hterm _
      rw [List.mem_singleton.mp hterm, List.nil_append]
      exact filterOf_ne htext hc hpass hlevel table no List.prefix_rfl
    · obtain ⟨rest, rfl⟩ : ∃ tail, rest = comma :: tail := by
        cases rest with
        | nil => cases hcomma
        | cons e tail => exact ⟨tail, by rw [Option.some_inj.mp hcomma]⟩
      rw [splitAll_stop hall (by rw [hlevel]; rfl)]
      intro term hterm
      rcases List.mem_cons.mp hterm with rfl | hterm
      · intro _
        rw [List.nil_append]
        exact filterOf_ne htext hc hpass hlevel table no List.prefix_rfl
      · refine hlater ?_ term hterm
        rw [List.length_cons] at hrest
        omega
  · rw [List.append_assoc, List.cons_append, splitAll_stop hfront hstop]
    intro term hterm
    rcases List.mem_cons.mp hterm with rfl | hterm
    · intro _
      rw [List.nil_append]
      exact filterOf_ne htext hc hpass hlevel table no (List.prefix_append _ _)
    · refine hlater ?_ term hterm
      have hbound : rest.length ≤ after.length + 2 := by
        rcases hrest with rfl | ⟨hrest, -⟩
        · simp
        · exact hrest
      simp only [List.length_append, List.length_cons] at hlength ⊢
      omega

end Broken

/-- Every clause holds two parentheses more than stands in it. -/
theorem clausesFrom_length {view : Bytes} {fuel : Nat} {rest : Bytes} (h : clausesFrom view fuel rest = .ok clauses) :
    ∀ clause ∈ clauses, clause.inside.length + 2 ≤ rest.length := by
  induction fuel generalizing rest clauses with
  | zero =>
    cases h
    simp
  | succ fuel ih =>
    rw [clausesFrom] at h
    split at h
    · cases h
      simp
    · split at h
      · cases h
      · next opened hopened =>
        split at h
        · cases h
        · next inside after hclosed =>
          have hspaces := (List.dropWhile_suffix (l := rest) isSpace).length_le
          have hkeyword := (List.dropWhile_suffix (l := rest.dropWhile isSpace)
            (· ≠ openParen)).length_le
          have hinside := closing_length hclosed
          rw [hopened, List.length_cons] at hkeyword
          cases hlater : clausesFrom view fuel after with
          | error e =>
            rw [hlater] at h
            cases h
          | ok later =>
            rw [hlater] at h
            cases h
            intro clause hclause
            rcases List.mem_cons.mp hclause with rfl | hclause
            · show inside.length + 2 ≤ rest.length
              omega
            · have hshort := ih hlater clause hclause
              omega

/-- No term of a clause is read as a text. -/
def Misses (text : Bytes) (clause : Clause) : Prop :=
  ∀ term ∈ splitOutsideParentheses clause.inside comma, equals ∈ term → filterOf term ≠ text

/-- Sorting leaves the filters. -/
theorem viewSorting_filters (sorting : Bytes) (s : RecordState table) :
    (exec (viewSorting sorting) s).2.filters = s.filters := by
  unfold viewSorting
  dsimp only
  split
  · rfl
  · next fields _ =>
    by_cases hnil : fields = []
    · rw [if_pos hnil]
      rfl
    · rw [if_neg hnil, exec_bind, exec_setCurrentKey hnil]
      cases allSortable fields with
      | error e => rfl
      | ok all => cases all <;> rfl

/-- No filter of a record is a text. -/
def Without (text : Bytes) (s : RecordState table) : Prop := ∀ one ∈ s.filters, one.text ≠ text

/-- Clauses that miss a text leave no filter with it. -/
theorem clauses_miss {text : Bytes} (h : ∀ clause ∈ clauses, Misses text clause)
    {s : RecordState table} (hs : Without text s) :
    Without text (exec (clauses.forM applyClause) s).2 := by
  refine exec_forM_keeps (P := Without text)
    (fun clause hclause s hs => ?_) hs
  unfold applyClause
  split
  · exact hs
  · split
    · rw [Without, viewSorting_filters]
      exact hs
    · split
      · exact hs
      · split
        · refine exec_forM_keeps (P := Without text)
            (fun term hterm s hs => ?_) hs
          have hmiss := h clause hclause term hterm
          unfold applyTerm
          split
          · exact hs
          · next hequals =>
            split
            · exact hs
            · next field _ =>
              rw [exec_modify]
              dsimp only
              rcases narrow_filters s field (filterOf term) with hsame | hnew
              · rw [Without, hsame]
                exact hs
              · rw [Without, hnew]
                intro one hone
                rcases List.mem_append.mp hone with hold | hone
                · exact hs one (List.mem_filter.mp hold).1
                · split at hone
                  · cases hone
                  · rw [List.mem_singleton.mp hone]
                    exact hmiss (not_not.mp hequals)
        · exact hs

/-- What is read behind ` WHERE(`. -/
def whereFrom (view : Bytes) (fuel : Nat) (opened : Bytes) : Except ViewError (List Clause) :=
  match closing weight closes 1 opened with
  | none => .error (.unclosed view)
  | some (inside, after) =>
    (clausesFrom view (fuel + 1) after).map fun clauses => ⟨ascii "WHERE", inside⟩ :: clauses

/-- Where the clauses of a filter do not miss its text, the text is enclosed. -/
theorem enclosed_of_read (table : TableDef) (no : FieldNo) {text view : Bytes} {fuel : Nat}
    (hread : clausesFrom view (fuel + 2) (ascii " WHERE(" ++ (openOf table no ++
      (text ++ [closeParen, closeParen]))) = .ok clauses)
    (hfound : ¬ ∀ clause ∈ clauses, Misses text clause) : Enclosed text := by
  obtain ⟨hopen, hcloses, hparts⟩ := open_passes table no
  have hstart : ∀ opened, clausesFrom view (fuel + 2) (ascii " WHERE(" ++ opened) = whereFrom view fuel opened :=
    fun opened => rfl
  rw [hstart, whereFrom, closing_append hcloses, hopen] at hread
  rcases @passes_or_stops _ weight closes (1 + 1) text with
    hall | ⟨before, c, after, htext, hpass, hstop⟩
  · rw [closing_append hall] at hread
    -- the parenthesis after the text closes its filter, or the clause, or none closes it
    by_cases hlevel : level weight text = 0
    · have hend : closing weight closes (1 + 1 + level weight text) [closeParen, closeParen] =
          some ([closeParen], []) := by
        rw [hlevel]
        decide
      rw [hend] at hread
      obtain rfl : [⟨ascii "WHERE", openOf table no ++ (text ++ [closeParen])⟩] = clauses :=
        Except.ok.inj hread
      rcases @passes_or_stops _ weight (parts comma) 1 text with
        hone | ⟨before, c, after, htext, hpass, hstop⟩
      · have hsplit : splitOutsideParentheses (openOf table no ++ (text ++ [closeParen])) comma =
            [openOf table no ++ (text ++ [closeParen])] := by
          have hterm : Passes weight (parts comma) 0 (openOf table no ++ (text ++ [closeParen])) := by
            have hlast : Passes weight (parts comma) 1 [closeParen] := by decide
            simp [hopen, hparts, hone, hlevel, hlast]
          rw [splitOutsideParentheses, splitAll_passes hterm, List.nil_append]
        have htrim : trim text = text := by
          by_contra hne
          refine hfound fun clause hclause term hterm _ => ?_
          rw [List.mem_singleton.mp hclause, hsplit, List.mem_singleton] at hterm
          rwa [hterm, filterOf_open]
        exact ⟨htrim, hlevel, hall, hone⟩
      · simp only [parts, Bool.and_eq_true, decide_eq_true_eq] at hstop
        obtain ⟨rfl, hdepth⟩ := hstop
        have hbefore : level weight before = -1 := by
          rw [show weight comma = 0 from rfl] at hdepth
          omega
        have hfront : Passes weight closes 2 before := by
          rw [htext, passes_append] at hall
          exact hall.1
        refine absurd (fun clause hclause => ?_) hfound
        rw [List.mem_singleton.mp hclause]
        have hmiss := terms_miss htext (.inl rfl) hfront hbefore table no
          (comma :: (after ++ [closeParen])) (.inr ⟨by simp, rfl⟩)
        rw [Misses]
        nth_rewrite 1 [htext]
        rw [List.append_assoc, List.cons_append]
        exact hmiss
    · have hend : closing weight closes (1 + 1 + level weight text) [closeParen, closeParen] =
          if level weight text = -1 then some ([], [closeParen]) else none := by
        have hweight : weight closeParen = -1 := rfl
        by_cases hone : level weight text = -1
        · rw [if_pos hone, hone]
          decide
        · have hfirst : closes closeParen (1 + 1 + level weight text + -1) = false := by
            simp only [closes, decide_true, Bool.true_and, decide_eq_false_iff_not]
            omega
          have hsecond : closes closeParen (1 + 1 + level weight text + -1 + -1) = false := by
            simp only [closes, decide_true, Bool.true_and, decide_eq_false_iff_not]
            omega
          simp only [closing, hweight, hfirst, hsecond, if_neg hone, Bool.false_eq_true, if_false, Option.map_none]
      rw [hend] at hread
      by_cases hone : level weight text = -1
      · rw [if_pos hone] at hread
        cases hread
      · rw [if_neg hone] at hread
        cases hread
  · simp only [closes, Bool.and_eq_true, decide_eq_true_eq] at hstop
    obtain ⟨rfl, hdepth⟩ := hstop
    have hbefore : level weight before = -1 := by
      rw [show weight closeParen = -1 from rfl] at hdepth
      omega
    have hclosed : closing weight closes (1 + 1) (text ++ [closeParen, closeParen]) =
        some (before, after ++ [closeParen, closeParen]) := by
      rw [htext, List.append_assoc, List.cons_append]
      exact closing_stop hpass (by rw [hbefore]; rfl) _
    rw [hclosed] at hread
    cases hlater : clausesFrom view (fuel + 1) (after ++ [closeParen, closeParen]) with
    | error e =>
      simp only [Option.map_some, hlater] at hread
      cases hread
    | ok later =>
      simp only [Option.map_some, hlater] at hread
      obtain rfl : ⟨ascii "WHERE", openOf table no ++ before⟩ :: later = clauses :=
        Except.ok.inj hread
      refine absurd (fun clause hclause => ?_) hfound
      rcases List.mem_cons.mp hclause with rfl | hclause
      · have hmiss := terms_miss htext (.inr rfl) hpass hbefore table no [] (.inl rfl)
        rwa [List.append_nil] at hmiss
      · -- what is left of the text is too short to hold it
        intro term hterm hequals heq
        have hshort := filterOf_length hequals
        have hpart := splitAll_length term hterm
        have hclauses := clausesFrom_length hlater clause hclause
        rw [heq, htext] at hshort
        simp only [List.length_append, List.length_cons, List.length_nil] at hshort hpart hclauses
        omega

/-- The view of a record with one filter. -/
theorem viewOf_one (h : Narrowed state) (hone : state.filters = [filter]) :
    viewOf (some state) false = orderOf state ++ (ascii " WHERE(" ++ (openOf table filter.field ++
      (filter.text ++ [closeParen, closeParen]))) := by
  have hjoined : joined ([filter].map (termOf false)) = termOf false filter :=
    intercalate_singleton comma (termOf false filter)
  rw [viewOf_eq h, hone, if_neg (List.cons_ne_nil _ _), hjoined, termOf_eq]
  simp only [List.append_assoc]
  rfl

/-- A filter that reads back is enclosed. -/
theorem enclosed_of_roundTrip {before : RecordState table} (h : Narrowed state)
    (hone : state.filters = [filter]) (hround : RoundTrip before state) : Enclosed filter.text := by
  have hrun := exec_applyView state before
  obtain ⟨fuel, hfuel⟩ : ∃ fuel, (viewOf (some state) false).length + 1 = fuel + 2 + 3 := by
    refine ⟨(viewOf (some state) false).length - 4, ?_⟩
    have hlong : 4 ≤ (viewOf (some state) false).length := by
      rw [viewOf_one h hone, List.length_append, List.length_append]
      exact Nat.le_trans (by decide) (Nat.le_add_left_of_le (Nat.le_add_right _ _))
    omega
  have hclauses : clausesOf (viewOf (some state) false) =
      (clausesFrom (viewOf (some state) false) (fuel + 2) (ascii " WHERE(" ++
        (openOf table filter.field ++ (filter.text ++ [closeParen, closeParen])))).map
          fun clauses => orderClauses state ++ clauses := by
    rw [clausesOf, hfuel, ← clausesFrom_order, ← viewOf_one h hone]
  have hanswer := hround.answer
  have hfilter := hround.filters filter.field
  cases hread : clausesFrom (viewOf (some state) false) (fuel + 2) (ascii " WHERE(" ++
      (openOf table filter.field ++ (filter.text ++ [closeParen, closeParen]))) with
  | error e =>
    rw [hclauses, hread] at hrun
    rw [hrun] at hanswer
    cases hanswer
  | ok clauses =>
    refine enclosed_of_read table filter.field hread fun hmiss => ?_
    rw [hclauses, hread] at hrun
    have hwithout : Without filter.text (exec (applyView (viewOf (some state) false)) before).2 := by
      rw [hrun]
      obtain ⟨read, -, -, horder⟩ := exec_order state (cleared before) clauses
      refine (congrArg (fun p => Without filter.text p.2) horder).mpr ?_
      dsimp only
      split
      · simp [Without, cleared]
      · split
        · simp [Without, cleared]
        · simp [Without, cleared]
        · exact clauses_miss hmiss (by simp [Without, cleared, sorted, selectionChanged])
    have hown : filterOn state filter.field = some filter.text := by
      have hgroup : filter.group = state.group := h.group filter (by simp [hone])
      simp [filterOn, hone, hgroup]
    rw [hown, filterOn, Option.map_eq_some_iff] at hfilter
    obtain ⟨one, hfound, htext⟩ := hfilter
    exact hwithout one (List.mem_of_find?_eq_some hfound) htext

/-- A record whose filters are enclosed reads back its sort fields only where they are
carried. -/
theorem sortCarried_of_roundTrip {before : RecordState table} (h : Narrowed state)
    (henclosed : ∀ one ∈ state.filters, Enclosed one.text) (hround : RoundTrip before state) :
    SortCarried state := by
  obtain ⟨read, hlength, hiff, hexec⟩ := exec_order state (cleared before) (whereClauses state)
  have hrun := exec_applyView state before
  rw [clausesOf_enclosed h henclosed] at hrun
  have hrun := hrun.trans hexec
  have hanswer := hround.answer
  by_cases hnil : read = []
  · rw [hrun, if_pos hnil] at hanswer
    cases hanswer
  rw [if_neg hnil] at hrun
  cases hall : allSortable read with
  | error e =>
    rw [hrun, hall] at hanswer
    cases hanswer
  | ok all =>
    cases all with
    | false =>
      rw [hrun, hall] at hanswer
      cases hanswer
    | true =>
      rw [hall] at hrun
      -- what the filters are read to leaves the sort fields
      have hkey : (exec (applyView (viewOf (some state) false)) before).2.key =
          (extended read).map fun field => ⟨field.1, true, field.2⟩ := by
        rw [hrun]
        refine exec_forM_keeps (P := fun t : RecordState table =>
          t.key = (extended read).map fun field => ⟨field.1, true, field.2⟩)
          (fun clause hclause t ht => ?_) rfl
        have hwhere : clause = ⟨ascii "WHERE", joined (state.filters.map (termOf false))⟩ := by
          unfold whereClauses at hclause
          split at hclause
          · cases hclause
          · exact List.mem_singleton.mp hclause
        subst hwhere
        exact exec_forM_keeps (P := fun t : RecordState table =>
          t.key = (extended read).map fun field => ⟨field.1, true, field.2⟩)
          (fun term _ t ht => (applyTerm_keeps term t).1.trans ht) ht
      have hbegins := extended_begins read
      have hne : extended read ≠ [] := fun hempty => by
        rw [hempty, List.map_nil, List.prefix_nil, List.map_eq_nil_iff] at hbegins
        exact hnil hbegins
      have hsorting := hround.sorting
      rw [sorting_sorted hne hkey] at hsorting
      have hnumbers : (extended read).map (·.1) = (sortFields state).map (·.1) := by
        rw [sortFields_number, ← sorting_number, ← hsorting, List.map_map]
        rfl
      have hread : read = sortFields state := by
        rw [hnumbers] at hbegins
        exact List.map_injective_iff.mpr Subtype.val_injective
          (hbegins.eq_of_length (by rw [List.length_map, List.length_map, hlength]))
      subst hread
      refine ⟨?_, hiff.mp rfl, hall, List.map_injective_iff.mpr Subtype.val_injective hnumbers, fun one hone => ?_⟩
      · rw [← sortFields_number]
        exact fun hempty => hnil (List.map_eq_nil_iff.mp hempty)
      · have hmem : (one.field, one.ascending) ∈ sorting state := by
          rw [sorting, if_pos (List.ne_nil_of_mem hone)]
          exact List.mem_map_of_mem hone
        rw [← hsorting, List.mem_map] at hmem
        obtain ⟨field, -, heq⟩ := hmem
        exact (congrArg Prod.snd heq).symm

/-- A single filter that reads back is on a field that its name is read as. -/
theorem nameable_of_roundTrip {before : RecordState table} (h : Narrowed state)
    (hone : state.filters = [filter]) (hsorting : SortCarried state)
    (henclosed : Enclosed filter.text) (hround : RoundTrip before state) :
    Nameable table filter.field := by
  have hall : ∀ one ∈ state.filters, Enclosed one.text := by simpa [hone] using henclosed
  obtain ⟨read, -, hiff, hexec⟩ := exec_order state (cleared before) (whereClauses state)
  have hread : read = sortFields state := hiff.mpr hsorting.named
  have hne : sortFields state ≠ [] := fun hnil => hsorting.sorts (by
    rw [← sortFields_number, hnil]
    rfl)
  subst hread
  rw [if_neg hne, hsorting.sortable] at hexec
  obtain ⟨field, hname, hterm⟩ := exec_applyTerm filter
  have hsplit : splitOutsideParentheses (joined ([filter].map (termOf false))) comma =
      [termOf false filter] :=
    splitAll_intercalate (by rfl) (by rfl) (List.cons_ne_nil _ _) fun part hpart => by
      rw [List.map_singleton, List.mem_singleton] at hpart
      rw [hpart]
      exact ⟨(term_passes henclosed).2.2, (term_passes henclosed).1⟩
  have hclause : ∀ s : RecordState table, exec (applyClause ⟨ascii "WHERE",
      joined ([filter].map (termOf false))⟩) s = (.ok ⟨⟩, narrow s field filter.text) := fun s => by
    have hwhere : exec ((splitOutsideParentheses (joined ([filter].map (termOf false)))
        comma).forM applyTerm) s = (.ok ⟨⟩, narrow s field filter.text) := by
      rw [hsplit, exec_forM_cons, hterm, henclosed.trimmed]
      rfl
    exact hwhere
  have hrun := exec_applyView state before
  rw [clausesOf_enclosed h hall] at hrun
  have hrun := hrun.trans hexec
  rw [whereClauses, hone, if_neg (List.cons_ne_nil _ _), exec_forM_cons, hclause] at hrun
  have hfilter := hround.filters filter.field
  have hown : filterOn state filter.field = some filter.text := by
    have hsame : filter.group = state.group := h.group filter (by simp [hone])
    simp [filterOn, hone, hsame]
  have htext : filter.text ≠ [] := h.text filter (by simp [hone])
  have hfilters : (exec (applyView (viewOf (some state) false)) before).2.filters =
      [⟨field.1, before.group, filter.text, field.2⟩] := by
    rw [hrun]
    exact narrow_new (by simp [cleared, sorted, selectionChanged]) htext
  rw [hown, filterOn, hfilters, Option.map_eq_some_iff] at hfilter
  obtain ⟨one, hfound, -⟩ := hfilter
  have hprop := List.find?_some hfound
  rw [List.mem_singleton.mp (List.mem_of_find?_eq_some hfound), decide_eq_true_eq] at hprop
  exact hname.mp hprop.1

/-- **A record with one filter at most reads back only where it is carried.** -/
theorem carried_of_roundTrip {before : RecordState table} (h : Narrowed state)
    (hone : state.filters.length ≤ 1) (hround : RoundTrip before state) : Carried state := by
  have henclosed : ∀ one ∈ state.filters, Enclosed one.text := by
    intro one hmem
    obtain ⟨filter, hfilter⟩ := List.length_eq_one_iff.mp
      (Nat.le_antisymm hone (List.length_pos_of_mem hmem))
    rw [hfilter, List.mem_singleton] at hmem
    exact hmem ▸ enclosed_of_roundTrip h hfilter hround
  refine ⟨sortCarried_of_roundTrip h henclosed hround, fun one hmem => ?_, henclosed⟩
  obtain ⟨filter, hfilter⟩ := List.length_eq_one_iff.mp
    (Nat.le_antisymm hone (List.length_pos_of_mem hmem))
  obtain rfl : one = filter := by simpa [hfilter] using hmem
  exact nameable_of_roundTrip h hfilter (sortCarried_of_roundTrip h henclosed hround)
    (henclosed one hmem) hround

/-- **A view carries what it was written from**, from any record of the group, where the
record is carried; and only there, of a record with one filter at most. -/
theorem view_round_trip (start before : RecordState table) (sets : List (Declared table × Bytes))
    (hgroup : before.group = start.group) :
    let state := narrowAll start sets
    (Carried state → RoundTrip before state) ∧
      (state.filters.length ≤ 1 → RoundTrip before state → Carried state) := by
  intro state
  obtain ⟨hnarrowed, hstate⟩ := narrowed_narrowAll start sets
  have hsame : before.group = state.group := hgroup.trans hstate.symm
  exact ⟨roundTrip_of_carried hnarrowed hsame, carried_of_roundTrip hnarrowed⟩

section Examples
open Temporary (items)

def number : Declared items := ⟨1, rfl⟩

def rank : Declared items := ⟨2, Eq.refl true⟩

/-- A range, and alternatives with parentheses of their own. -/
theorem view_round_trip_of_items :
    RoundTrip {} (narrowAll {} [(number, ascii "1..2"), (rank, ascii "1|(2&3)")]) := by
  refine (view_round_trip {} {} [(number, ascii "1..2"), (rank, ascii "1|(2&3)")] rfl).1 ?_
  have hfilters : (narrowAll {} [(number, ascii "1..2"), (rank, ascii "1|(2&3)")]).filters =
      [⟨1, 0, ascii "1..2", rfl⟩, ⟨2, 0, ascii "1|(2&3)", rfl⟩] := rfl
  refine ⟨⟨by decide, by decide +kernel, by rfl, by decide +kernel, by simp [narrowAll]⟩, ?_, ?_⟩
  · rw [hfilters]
    decide +kernel
  · rw [hfilters]
    simp only [List.forall_mem_cons, List.not_mem_nil, false_implies, implies_true, and_true]
    exact ⟨⟨by decide, by decide, by decide, by decide⟩, ⟨by decide, by decide, by decide, by decide⟩⟩

/-- A descending sort field comes back ascending, and a filter for a value with a closing
parenthesis closes the view's clause. -/
theorem view_loses :
    ¬ RoundTrip {} ({key := [⟨1, false, rfl⟩]} : RecordState items) ∧
      ¬ RoundTrip {} (narrowAll ({} : RecordState items) [(rank, ascii "'a)'")]) := by
  refine ⟨fun h => ?_, fun h => ?_⟩
  · have hsorting := h.sorting
    revert hsorting
    decide +kernel
  · have hanswer := congrArg Except.toBool h.answer
    revert hanswer
    decide +kernel

end Examples

end Agiru.View
