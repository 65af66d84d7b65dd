import Agiru.Library.SortedRows

/-! Steps along sorted rows that may change between the steps.

`following` and `preceding` are the rows after and before a place, nearest first; a
`tour` starts at the first row and steps to the next one in whatever rows it then
sees. A tour is exact: it goes on strictly, it steps over no row, and it stops only at
the end. -/
namespace SortedRows

variable {α : Type} (cmp : α → α → Ordering)

def following (rows : List α) (x : α) : List α := rows.filter fun row => cmp row x = .gt

/-- The rows before a place, the nearest first. -/
def preceding (rows : List α) (x : α) : List α := (rows.filter fun row => cmp row x = .lt).reverse

variable {cmp} {rows before after : List α} {x row : α}

theorem filter_lt_smaller (h : ∀ r ∈ before, cmp r x = .lt) :
    (before.filter fun r => cmp r x = .lt) = before ∧ (before.filter fun r => cmp r x = .gt) = [] := by
  constructor
  · exact List.filter_eq_self.mpr fun r hr => by simp [h r hr]
  · exact List.filter_eq_nil_iff.mpr fun r hr => by simp [h r hr]

theorem filter_gt_greater (h : ∀ r ∈ after, cmp r x = .gt) :
    (after.filter fun r => cmp r x = .lt) = [] ∧ (after.filter fun r => cmp r x = .gt) = after := by
  constructor
  · exact List.filter_eq_nil_iff.mpr fun r hr => by simp [h r hr]
  · exact List.filter_eq_self.mpr fun r hr => by simp [h r hr]

theorem Found.steps (h : Found cmp rows x before row after) :
    following cmp rows x = after ∧ preceding cmp rows x = before.reverse := by
  have hb := filter_lt_smaller h.smaller
  have ha := filter_gt_greater h.greater
  rw [following, preceding, h.split]
  simp only [List.filter_append, List.filter_cons, h.same, hb.1, hb.2, ha.1, ha.2]
  simp

theorem Missing.steps (h : Missing cmp rows x before after) :
    following cmp rows x = after ∧ preceding cmp rows x = before.reverse := by
  have hb := filter_lt_smaller h.smaller
  have ha := filter_gt_greater h.greater
  rw [following, preceding, h.split]
  simp only [List.filter_append, hb.1, hb.2, ha.1, ha.2]
  simp

/-- A row of increasing rows is found at its position. -/
theorem found_at [Std.TransCmp cmp] (h : Increasing cmp rows) {i : Nat} (hi : rows[i]? = some row)
    (heq : cmp row x = .eq) : Found cmp rows x (rows.take i) row (rows.drop (i + 1)) := by
  obtain ⟨hlt, rfl⟩ := List.getElem?_eq_some_iff.mp hi
  have hsplit : rows = rows.take i ++ rows[i] :: rows.drop (i + 1) := by
    rw [← List.drop_eq_getElem_cons hlt, List.take_append_drop]
  have hsorted := h
  rw [Increasing, hsplit, List.pairwise_append, List.pairwise_cons] at hsorted
  obtain ⟨-, ⟨hafter, -⟩, hcross⟩ := hsorted
  have hsmaller : ∀ r ∈ rows.take i, cmp r x = .lt := fun r hr => by
    rw [← Std.TransCmp.congr_right heq]
    exact hcross r hr _ List.mem_cons_self
  have hgreater : ∀ r ∈ rows.drop (i + 1), cmp r x = .gt := fun r hr => by
    rw [Std.OrientedCmp.gt_iff_lt, ← Std.TransCmp.congr_left heq]
    exact hafter r hr
  refine ⟨hsplit, ?_, hsmaller, heq, hgreater⟩
  have hwhile : rows.takeWhile (fun r => cmp r x = .lt) = rows.take i := by
    conv_lhs => rw [hsplit]
    rw [List.takeWhile_append_of_pos (by simpa using hsmaller), List.takeWhile_cons_of_neg (by simp [heq]),
      List.append_nil]
  rw [place, Search.lowerBound_eq (divided_of_increasing h x), hwhile]

/-- The rows ahead of one of the rows are those after it. -/
theorem following_append [Std.TransCmp cmp] (h : Increasing cmp (before ++ x :: after)) :
    following cmp (before ++ x :: after) x = after := by
  have hat : (before ++ x :: after)[before.length]? = some x := by simp
  rw [(found_at h hat Std.ReflCmp.compare_self).steps.1]
  simp

/-- From a row ahead on, the rows ahead are those left. -/
theorem following_of_getElem [Std.TransCmp cmp] (h : Increasing cmp rows) {i : Nat} {y : α}
    (hi : (following cmp rows x)[i]? = some y) :
    following cmp rows y = (following cmp rows x).drop (i + 1) := by
  obtain ⟨front, hsplit⟩ : ∃ front, rows = front ++ following cmp rows x := by
    rcases place_cases h x with ⟨before, row, after, hf⟩ | ⟨before, after, hm⟩
    · exact ⟨before ++ [row], by rw [hf.steps.1, hf.split]; simp⟩
    · exact ⟨before, by rw [hm.steps.1, hm.split]⟩
  have hy : rows[front.length + i]? = some y := by
    rw [hsplit, List.getElem?_append_right (by omega)]
    rwa [Nat.add_sub_cancel_left]
  rw [(found_at h hy Std.ReflCmp.compare_self).steps.1]
  conv_lhs => rw [hsplit]
  rw [List.drop_append, List.drop_eq_nil_of_le (by omega), List.nil_append]
  congr 1
  omega

theorem preceding_of_getElem [Std.TransCmp cmp] (h : Increasing cmp rows) {i : Nat} {y : α}
    (hi : (preceding cmp rows x)[i]? = some y) :
    preceding cmp rows y = (preceding cmp rows x).drop (i + 1) := by
  obtain ⟨rest, hsplit⟩ : ∃ rest, rows = (preceding cmp rows x).reverse ++ rest := by
    rcases place_cases h x with ⟨before, row, after, hf⟩ | ⟨before, after, hm⟩
    · exact ⟨row :: after, by rw [hf.steps.2, List.reverse_reverse, hf.split]⟩
    · exact ⟨after, by rw [hm.steps.2, List.reverse_reverse, hm.split]⟩
  generalize preceding cmp rows x = back at hi hsplit ⊢
  obtain ⟨hlt, rfl⟩ := List.getElem?_eq_some_iff.mp hi
  have hback : back.reverse = (back.drop (i + 1)).reverse ++ back[i] :: (back.take i).reverse := by
    conv_lhs => rw [← List.take_append_drop i back, List.drop_eq_getElem_cons hlt]
    simp
  rw [hback, List.append_assoc, List.cons_append] at hsplit
  have hy : rows[(back.drop (i + 1)).reverse.length]? = some back[i] := by
    rw [hsplit, List.getElem?_append_right (Nat.le_refl _), Nat.sub_self]
    rfl
  rw [(found_at h hy Std.ReflCmp.compare_self).steps.2]
  conv_lhs => rw [hsplit]
  rw [List.take_left, List.reverse_reverse]

/-! ### Tours -/

variable (cmp)

/-- From a place on: the next row of each list of rows, as far as there is one. -/
def follow (x : α) : List (List α) → List α
  | [] => []
  | rows :: later =>
    match (following cmp rows x).head? with
    | none => []
    | some y => y :: follow y later

/-- What a tour visits that sees these rows first and those at its steps. -/
def tour (rows : List α) (later : List (List α)) : List α :=
  match rows.head? with
  | none => []
  | some x => x :: follow cmp x later

/-- What is so of the visits of a tour that saw these rows, one list for each step. -/
structure Exact (visited : List α) (seen : List (List α)) : Prop where
  /-- It goes on strictly, and so visits no row twice. -/
  increasing : Increasing cmp visited
  /-- Each visit is to a row seen then, and steps over none. -/
  nearest : ∀ i y, visited[i]? = some y → ∃ rows, seen[i]? = some rows ∧ y ∈ rows ∧
    ∀ r ∈ rows, cmp r y = .lt → ∃ x ∈ visited.take i, cmp r x ≠ .gt
  /-- It ends only where no row follows. -/
  last : ∀ rows, seen[visited.length]? = some rows → ∀ r ∈ rows, ∃ x ∈ visited, cmp r x ≠ .gt

/-- The same of the visits after a place. -/
structure ExactAfter (x : α) (visited : List α) (seen : List (List α)) : Prop where
  increasing : Increasing cmp (x :: visited)
  nearest : ∀ i y, visited[i]? = some y → ∃ rows, seen[i]? = some rows ∧ y ∈ rows ∧
    ∀ r ∈ rows, cmp r y = .lt → ∃ z ∈ x :: visited.take i, cmp r z ≠ .gt
  last : ∀ rows, seen[visited.length]? = some rows → ∀ r ∈ rows, ∃ z ∈ x :: visited, cmp r z ≠ .gt

variable {cmp} [Std.TransCmp cmp]

/-- The first of increasing rows is the least. -/
theorem head_least (h : Increasing cmp rows) (hx : rows.head? = some x) :
    ∀ r ∈ rows, cmp r x ≠ .lt := by
  cases rows with
  | nil => cases hx
  | cons first rows =>
    cases hx
    intro r hr hlt
    rcases List.mem_cons.mp hr with rfl | hr
    · simp [Std.ReflCmp.compare_self] at hlt
    · have := (List.pairwise_cons.mp h).1 r hr
      rw [← Std.OrientedCmp.gt_iff_lt, hlt] at this
      cases this

theorem exact_follow {later : List (List α)} (h : ∀ rows ∈ later, Increasing cmp rows) (x : α) :
    ExactAfter cmp x (follow cmp x later) later := by
  induction later generalizing x with
  | nil => exact ⟨List.pairwise_singleton _ _, by simp [follow], by simp⟩
  | cons rows later ih =>
    obtain ⟨hrows, hlater⟩ := List.forall_mem_cons.mp h
    rw [follow]
    cases hhead : (following cmp rows x).head? with
    | none =>
      have hnil := List.head?_eq_none_iff.mp hhead
      refine ⟨List.pairwise_singleton _ _, by simp, fun seen hseen r hr => ?_⟩
      obtain rfl : rows = seen := by simpa using hseen
      exact ⟨x, by simp, by simpa using List.filter_eq_nil_iff.mp hnil r hr⟩
    | some y =>
      have hy := List.mem_of_head? hhead
      obtain ⟨hmem, hxy⟩ : y ∈ rows ∧ cmp y x = .gt := by simpa [following] using hy
      have hleast := head_least (hrows.sublist List.filter_sublist) hhead
      obtain ⟨hinc, hnearest, hlast⟩ := ih hlater y
      refine ⟨List.pairwise_cons.mpr ⟨fun z hz => ?_, hinc⟩, fun i z hz => ?_, fun seen hseen r hr => ?_⟩
      · have hlt := Std.OrientedCmp.gt_iff_lt.mp hxy
        rcases List.mem_cons.mp hz with rfl | hz
        · exact hlt
        · exact Std.TransCmp.lt_trans hlt ((List.pairwise_cons.mp hinc).1 z hz)
      · cases i with
        | zero =>
          obtain rfl : y = z := by simpa using hz
          refine ⟨rows, rfl, hmem, fun r hr hlt => ⟨x, by simp, fun hgt => ?_⟩⟩
          exact hleast r (List.mem_filter.mpr ⟨hr, by simpa using hgt⟩) hlt
        | succ i =>
          obtain ⟨seen, hseen, hin, hover⟩ := hnearest i z hz
          refine ⟨seen, hseen, hin, fun r hr hlt => ?_⟩
          obtain ⟨w, hw, hle⟩ := hover r hr hlt
          exact ⟨w, List.mem_cons_of_mem _ hw, hle⟩
      · obtain ⟨w, hw, hle⟩ := hlast seen hseen r hr
        exact ⟨w, List.mem_cons_of_mem _ hw, hle⟩

/-- A tour of increasing rows is exact. -/
theorem exact_tour {later : List (List α)} (hrows : Increasing cmp rows)
    (hlater : ∀ rows ∈ later, Increasing cmp rows) :
    Exact cmp (tour cmp rows later) (rows :: later) := by
  rw [tour]
  cases hhead : rows.head? with
  | none =>
    have hnil := List.head?_eq_none_iff.mp hhead
    exact ⟨List.Pairwise.nil, by simp, by simp [hnil]⟩
  | some x =>
    obtain ⟨hinc, hnearest, hlast⟩ := exact_follow hlater x
    refine ⟨hinc, fun i y hy => ?_, hlast⟩
    cases i with
    | zero =>
      obtain rfl : x = y := by simpa using hy
      exact ⟨rows, rfl, List.mem_of_head? hhead, fun r hr hlt => absurd hlt (head_least hrows hhead r hr)⟩
    | succ i => exact hnearest i y hy

/-- A row that is seen at every step of an ended tour is visited. -/
theorem Exact.throughout {visited : List α} {seen : List (List α)} (h : Exact cmp visited seen)
    (hended : visited.length < seen.length) {r : α}
    (hr : ∀ rows ∈ seen.take (visited.length + 1), ∃ r' ∈ rows, cmp r' r = .eq) :
    ∃ x ∈ visited, cmp x r = .eq := by
  have hseen : ∀ i ≤ visited.length, ∀ rows, seen[i]? = some rows → ∃ r' ∈ rows, cmp r' r = .eq := by
    intro i hi rows hrows
    refine hr rows (List.mem_of_getElem? (i := i) ?_)
    rw [List.getElem?_take, if_pos (by omega), hrows]
  -- the first visit that is not before the row is to the row
  have hfirst : ∀ n ≤ visited.length, (∃ x ∈ visited.take n, cmp r x ≠ .gt) →
      ∃ x ∈ visited, cmp x r = .eq := by
    intro n
    induction n with
    | zero => simp
    | succ n ih =>
      rintro hn ⟨x, hx, hle⟩
      by_cases hbefore : ∃ x ∈ visited.take n, cmp r x ≠ .gt
      · exact ih (by omega) hbefore
      · have hlt : n < visited.length := by omega
        obtain ⟨i, hi⟩ := List.mem_iff_getElem?.mp hx
        have hxn : visited[n]? = some x := by
          rw [List.getElem?_take] at hi
          split at hi
          · next hin =>
            rcases Nat.lt_or_eq_of_le (Nat.le_of_lt_succ hin) with hlow | rfl
            · exact absurd ⟨x, List.mem_of_getElem? (i := i) (by
                rw [List.getElem?_take, if_pos hlow, hi]), hle⟩ hbefore
            · exact hi
          · cases hi
        obtain ⟨rows, hrows, -, hover⟩ := h.nearest n x hxn
        obtain ⟨r', hr', heq⟩ := hseen n (by omega) rows hrows
        have hcongr : cmp r' x = cmp r x := Std.TransCmp.congr_left heq
        refine ⟨x, List.mem_of_getElem? hxn, ?_⟩
        cases hcmp : cmp r x with
        | lt =>
          obtain ⟨z, hz, hzle⟩ := hover r' hr' (hcongr.trans hcmp)
          rw [Std.TransCmp.congr_left heq] at hzle
          exact absurd ⟨z, hz, hzle⟩ hbefore
        | eq => exact Std.OrientedCmp.eq_comm.mp hcmp
        | gt => exact absurd hcmp hle
  obtain ⟨rows, hrows⟩ : ∃ rows, seen[visited.length]? = some rows :=
    ⟨_, List.getElem?_eq_getElem hended⟩
  obtain ⟨r', hr', heq⟩ := hseen _ (Nat.le_refl _) rows hrows
  obtain ⟨x, hx, hle⟩ := h.last rows hrows r' hr'
  rw [Std.TransCmp.congr_left heq] at hle
  exact hfirst visited.length (Nat.le_refl _) ⟨x, by rwa [List.take_length], hle⟩

/-! ### Rows that stay the same -/

end SortedRows
