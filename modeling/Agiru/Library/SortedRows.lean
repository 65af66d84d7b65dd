import Agiru.Library.Search
import Mathlib.Data.List.InsertIdx
import Mathlib.Data.List.Sort

/-! Comparing one after another: the first that are not equal decide.

What comes out, if not equality, is what an element says that all before it call equal (`exists_split_iff`). -/
namespace Lexicographic

variable {α : Type*} (f : α → Ordering)

/-- What the first element says that does not call equal. -/
def first : List α → Ordering
  | [] => .eq
  | a :: l => (f a).then (first l)

/-- Each element, with those before it. -/
def splits (before : List α) : List α → List (List α × α)
  | [] => []
  | a :: l => (before, a) :: splits (before ++ [a]) l

variable {f}

theorem first_congr {g : α → Ordering} {l : List α} (h : ∀ a ∈ l, f a = g a) : first f l = first g l := by
  induction l with
  | nil => rfl
  | cons a l ih =>
    obtain ⟨ha, hl⟩ := List.forall_mem_cons.mp h
    rw [first, first, ha, ih hl]

theorem first_swap (l : List α) : first (fun a => (f a).swap) l = (first f l).swap := by
  induction l with
  | nil => rfl
  | cons a l ih => rw [first, first, ih, Ordering.swap_then]

theorem first_map {β : Type*} (g : β → α) (l : List β) : first f (l.map g) = first (fun b => f (g b)) l := by
  induction l with
  | nil => rfl
  | cons b l ih => rw [List.map_cons, first, first, ih]

theorem first_eq_eq_iff {l : List α} : first f l = .eq ↔ ∀ a ∈ l, f a = .eq := by
  induction l with
  | nil => exact iff_of_true rfl fun _ h => absurd h List.not_mem_nil
  | cons a l ih => rw [first, Ordering.then_eq_eq, ih, List.forall_mem_cons]

/-- The elements before call equal, and this one decides. -/
theorem exists_split_iff {o : Ordering} (ho : o ≠ .eq) (before l : List α) :
    (∃ split ∈ splits before l, (∀ a ∈ split.1, f a = .eq) ∧ f split.2 = o) ↔
      (∀ a ∈ before, f a = .eq) ∧ first f l = o := by
  induction l generalizing before with
  | nil =>
    rw [splits, first]
    exact iff_of_false (fun ⟨_, hmem, _⟩ => List.not_mem_nil hmem) fun h => ho h.2.symm
  | cons a l ih =>
    have hthen : (f a).then (first f l) = o ↔ f a = o ∨ (f a = .eq ∧ first f l = o) := by
      cases hfa : f a with
      | eq =>
        rw [Ordering.eq_then, or_iff_right (fun h => ho h.symm), and_iff_right rfl]
      | lt | gt => simp
    rw [splits, first, hthen]
    constructor
    · rintro ⟨split, hmem, hsplit⟩
      rcases List.mem_cons.mp hmem with rfl | hmem
      · exact ⟨hsplit.1, .inl hsplit.2⟩
      · obtain ⟨hall, hfirst⟩ := (ih (before ++ [a])).mp ⟨split, hmem, hsplit⟩
        exact ⟨fun b hb => hall b (List.mem_append_left _ hb), .inr ⟨hall a (by simp), hfirst⟩⟩
    · intro h
      obtain ⟨hbefore, hdecides | ⟨heq, hfirst⟩⟩ := h
      · exact ⟨(before, a), List.mem_cons_self, hbefore, hdecides⟩
      · have hall : ∀ b ∈ before ++ [a], f b = .eq := by
          intro b hb
          rcases List.mem_append.mp hb with hb | hb
          · exact hbefore b hb
          · rw [List.mem_singleton.mp hb]
            exact heq
        obtain ⟨split, hmem, hsplit⟩ := (ih (before ++ [a])).mpr ⟨hall, hfirst⟩
        exact ⟨split, List.mem_cons_of_mem _ hmem, hsplit⟩

end Lexicographic

/-! ### Rows kept strictly increasing under a comparison.

A row's place is its lower bound. `place_cases` says what stands there: either the one
row that compares equal, or the gap where it belongs; each operation then keeps the
rows increasing. Where equal rows are those of one key, increasing rows are a map from
keys to rows, `toMap`, and the operations are those of the map. -/
namespace SortedRows

variable {α : Type} (cmp : α → α → Ordering)

def Increasing (rows : List α) : Prop := rows.Pairwise fun a b => cmp a b = .lt

/-- Where a row stands or belongs. -/
def place (rows : List α) (x : α) : Nat := Search.lowerBound (fun row => cmp row x = .lt) rows

/-- Whether the row at a position compares equal. -/
def sameAt (rows : List α) (i : Nat) (x : α) : Bool := rows[i]?.any fun row => cmp row x = .eq

/-- The row that compares equal stands between the smaller and the greater ones. -/
structure Found (rows : List α) (x : α) (before : List α) (row : α) (after : List α) : Prop where
  split : rows = before ++ row :: after
  place : place cmp rows x = before.length
  smaller : ∀ r ∈ before, cmp r x = .lt
  same : cmp row x = .eq
  greater : ∀ r ∈ after, cmp r x = .gt

/-- No row compares equal, and the smaller and the greater ones meet at the place. -/
structure Missing (rows : List α) (x : α) (before after : List α) : Prop where
  split : rows = before ++ after
  place : place cmp rows x = before.length
  smaller : ∀ r ∈ before, cmp r x = .lt
  greater : ∀ r ∈ after, cmp r x = .gt

variable {cmp}

section Place
variable [Std.TransCmp cmp]

theorem divided_of_increasing {rows : List α} (h : Increasing cmp rows) (x : α) :
    Search.Divided (fun row => cmp row x = .lt) rows :=
  h.imp fun hab hb => by
    simpa using Std.TransCmp.lt_trans hab (by simpa using hb)

/-- The row at its place, or the gap. -/
theorem place_cases {rows : List α} (h : Increasing cmp rows) (x : α) :
    (∃ before row after, Found cmp rows x before row after) ∨
      ∃ before after, Missing cmp rows x before after := by
  have hplace : place cmp rows x = (rows.takeWhile fun row => cmp row x = .lt).length :=
    Search.lowerBound_eq (divided_of_increasing h x)
  have hsplit := (List.takeWhile_append_dropWhile (p := fun row => decide (cmp row x = .lt))
    (l := rows)).symm
  have hsmaller : ∀ r ∈ rows.takeWhile fun row => cmp row x = .lt, cmp r x = .lt := fun r hr => by
    simpa using List.mem_takeWhile_imp hr
  cases hrest : rows.dropWhile fun row => cmp row x = .lt with
  | nil =>
    rw [hrest] at hsplit
    exact .inr ⟨_, [], hsplit, hplace, hsmaller, fun _ hr => absurd hr List.not_mem_nil⟩
  | cons row after =>
    rw [hrest] at hsplit
    have hnot : cmp row x ≠ .lt := by
      have := List.head?_dropWhile_not (fun row => decide (cmp row x = .lt)) rows
      rw [hrest] at this
      simpa using this
    have hafter : ∀ r ∈ after, cmp row r = .lt := by
      have hsorted : Increasing cmp (row :: after) := by
        rw [hsplit] at h
        exact (List.pairwise_append.mp h).2.1
      exact (List.pairwise_cons.mp hsorted).1
    cases hrow : cmp row x with
    | lt => exact absurd hrow hnot
    | eq =>
      refine .inl ⟨_, row, after, hsplit, hplace, hsmaller, hrow, fun r hr => ?_⟩
      rw [Std.OrientedCmp.gt_iff_lt, ← Std.TransCmp.congr_left hrow]
      exact hafter r hr
    | gt =>
      refine .inr ⟨_, row :: after, hsplit, hplace, hsmaller, fun r hr => ?_⟩
      rcases List.mem_cons.mp hr with rfl | hr
      · exact hrow
      · rw [Std.OrientedCmp.gt_iff_lt] at hrow ⊢
        exact Std.TransCmp.lt_trans hrow (hafter r hr)

end Place

namespace Found
variable {rows before after : List α} {x row : α}

theorem sameAt (h : Found cmp rows x before row after) :
    SortedRows.sameAt cmp rows (SortedRows.place cmp rows x) x = true := by
  rw [h.place, h.split]
  simp [SortedRows.sameAt, h.same]

theorem getElem (h : Found cmp rows x before row after) :
    rows[SortedRows.place cmp rows x]? = some row := by
  rw [h.place, h.split]
  simp

theorem eraseIdx (h : Found cmp rows x before row after) :
    rows.eraseIdx (SortedRows.place cmp rows x) = before ++ after := by
  rw [h.place, h.split, List.eraseIdx_append_of_length_le (Nat.le_refl _), Nat.sub_self]
  rfl

theorem set (h : Found cmp rows x before row after) :
    rows.set (SortedRows.place cmp rows x) x = before ++ x :: after := by
  rw [h.place, h.split]
  simp

end Found

namespace Missing
variable {rows before after : List α} {x : α}

theorem sameAt (h : Missing cmp rows x before after) :
    SortedRows.sameAt cmp rows (SortedRows.place cmp rows x) x = false := by
  rw [h.place, h.split]
  cases after with
  | nil => simp [SortedRows.sameAt]
  | cons r after =>
    have := h.greater r List.mem_cons_self
    simp [SortedRows.sameAt, this]

theorem insertIdx (h : Missing cmp rows x before after) :
    rows.insertIdx (SortedRows.place cmp rows x) x = before ++ x :: after := by
  have hat : ∀ before : List α, (before ++ after).insertIdx before.length x = before ++ x :: after := by
    intro before
    induction before with
    | nil => rfl
    | cons r before ih => simp [ih]
  rw [h.place, h.split, hat]

end Missing

/-- A row between the smaller and the greater ones of increasing rows. -/
theorem increasing_between [Std.TransCmp cmp] {before after : List α} {x : α}
    (h : Increasing cmp (before ++ after)) (hsmaller : ∀ r ∈ before, cmp r x = .lt)
    (hgreater : ∀ r ∈ after, cmp r x = .gt) : Increasing cmp (before ++ x :: after) := by
  obtain ⟨hbefore, hafter, hcross⟩ := List.pairwise_append.mp h
  refine List.pairwise_append.mpr ⟨hbefore, List.pairwise_cons.mpr ⟨fun r hr => ?_, hafter⟩, ?_⟩
  · exact Std.OrientedCmp.gt_iff_lt.mp (hgreater r hr)
  · intro a ha b hb
    rcases List.mem_cons.mp hb with rfl | hb
    · exact hsmaller a ha
    · exact hcross a ha b hb

theorem Found.increasing [Std.TransCmp cmp] {rows before after : List α} {x row : α}
    (h : Increasing cmp rows) (hf : Found cmp rows x before row after) :
    Increasing cmp (before ++ after) := by
  rw [hf.split] at h
  exact h.sublist (List.Sublist.append_left (List.sublist_cons_self _ _) _)

/-- Increasing lists of the same rows are one list. -/
theorem eq_of_perm [Std.TransCmp cmp] {rows rows' : List α} (h : Increasing cmp rows) (h' : Increasing cmp rows')
    (hperm : rows.Perm rows') : rows = rows' := by
  refine List.Perm.eq_of_pairwise (fun a b _ _ hab hba => ?_) h h' hperm
  have hgt := Std.OrientedCmp.gt_iff_lt.mpr hab
  rw [hba] at hgt
  cases hgt

theorem eq_of_mem_iff [Std.TransCmp cmp] {rows rows' : List α} (h : Increasing cmp rows) (h' : Increasing cmp rows')
    (hmem : ∀ row, row ∈ rows ↔ row ∈ rows') : rows = rows' := by
  have hnodup : ∀ {rows : List α}, Increasing cmp rows → rows.Nodup := by
    intro rows h
    apply h.imp
    intro a b hlt heq
    have hself : cmp a b = .eq := heq ▸ Std.ReflCmp.compare_self
    rw [hself] at hlt
    cases hlt
  exact eq_of_perm h h' ((List.perm_ext_iff_of_nodup (hnodup h) (hnodup h')).mpr hmem)

/-! ### Sorting rows -/

section Sorting
variable (cmp)

/-- Rows that compare equal keep their order. -/
def stableSort (rows : List α) : List α := rows.insertionSort fun a b => (cmp a b).isLE = true

variable {cmp}

theorem mem_stableSort {rows : List α} {row : α} : row ∈ stableSort cmp rows ↔ row ∈ rows :=
  List.mem_insertionSort _

/-- Sorting by what stands behind the elements sorts that. -/
theorem map_stableSort {β : Type} (f : β → α) (xs : List β) :
    (stableSort (fun a b => cmp (f a) (f b)) xs).map f = stableSort cmp (xs.map f) :=
  List.map_insertionSort _ _ f xs fun _ _ _ _ => Iff.rfl

/-- Only how the rows themselves compare matters. -/
theorem stableSort_congr {cmp' : α → α → Ordering} {rows : List α}
    (h : ∀ a ∈ rows, ∀ b ∈ rows, cmp a b = cmp' a b) : stableSort cmp rows = stableSort cmp' rows := by
  have hinsert : ∀ (a : α) (l : List α), (∀ b ∈ l, cmp a b = cmp' a b) →
      l.orderedInsert (fun a b => (cmp a b).isLE = true) a = l.orderedInsert (fun a b => (cmp' a b).isLE = true) a := by
    intro a l hl
    induction l with
    | nil => rfl
    | cons b l ih =>
      obtain ⟨hb, hl⟩ := List.forall_mem_cons.mp hl
      rw [List.orderedInsert_cons, List.orderedInsert_cons, hb, ih hl]
  induction rows with
  | nil => rfl
  | cons a rows ih =>
    have hrows : stableSort cmp rows = stableSort cmp' rows :=
      ih fun b hb c hc => h b (List.mem_cons_of_mem _ hb) c (List.mem_cons_of_mem _ hc)
    have hsort : ∀ f : α → α → Ordering, stableSort f (a :: rows) =
        (stableSort f rows).orderedInsert (fun a b => (f a b).isLE = true) a := fun _ => rfl
    rw [hsort, hsort, hrows]
    apply hinsert
    intro b hb
    exact h a List.mem_cons_self b (List.mem_cons_of_mem _ (mem_stableSort.mp hb))

/-- Rows of which no two compare equal are sorted to increasing ones. -/
theorem increasing_stableSort [Std.TransCmp cmp] {rows : List α}
    (h : rows.Pairwise fun a b => cmp a b ≠ .eq) : Increasing cmp (stableSort cmp rows) := by
  have htotal : Std.Total fun a b : α => (cmp a b).isLE = true := ⟨fun a b => by
    have hswap : cmp b a = (cmp a b).swap := Std.OrientedCmp.eq_swap
    rw [hswap]
    cases cmp a b <;> simp⟩
  have htrans : IsTrans α fun a b : α => (cmp a b).isLE = true :=
    ⟨fun _ _ _ => Std.TransCmp.isLE_trans⟩
  have hsorted := List.pairwise_insertionSort (fun a b : α => (cmp a b).isLE = true) rows
  have hdistinct : (stableSort cmp rows).Pairwise fun a b => cmp a b ≠ .eq :=
    ((List.perm_insertionSort _ rows).pairwise_iff fun hne heq =>
      hne (Std.OrientedCmp.eq_comm.mp heq)).mpr h
  refine hsorted.imp₂ (fun a b hle hne => ?_) hdistinct
  cases hcmp : cmp a b with
  | lt => rfl
  | eq => exact absurd hcmp hne
  | gt => simp [hcmp] at hle

end Sorting

/-! ### The map the rows stand for -/

section Map
variable {κ : Type} [DecidableEq κ] (key : α → κ)

def toMap (rows : List α) : κ → Option α := fun k => rows.find? fun row => key row = k

variable {key} [Std.TransCmp cmp] (hkey : ∀ a b, cmp a b = .eq ↔ key a = key b)
include hkey

omit [DecidableEq κ] in
/-- Increasing rows have one row of a key at most. -/
theorem eq_of_key {rows : List α} (h : Increasing cmp rows) {a b : α} (ha : a ∈ rows)
    (hb : b ∈ rows) (hab : key a = key b) : a = b := by
  obtain ⟨i, hi, rfl⟩ := List.mem_iff_getElem.mp ha
  obtain ⟨j, hj, rfl⟩ := List.mem_iff_getElem.mp hb
  have heq := (hkey _ _).mpr hab
  rcases Nat.lt_trichotomy i j with hlt | rfl | hgt
  · simp [List.pairwise_iff_getElem.mp h i j hi hj hlt] at heq
  · rfl
  · have hlt := List.pairwise_iff_getElem.mp h j i hj hi hgt
    simp [Std.OrientedCmp.gt_iff_lt.mpr hlt] at heq

theorem toMap_eq_some {rows : List α} (h : Increasing cmp rows) {k : κ} {row : α} :
    toMap key rows k = some row ↔ row ∈ rows ∧ key row = k := by
  constructor
  · intro hfind
    exact ⟨List.mem_of_find?_eq_some hfind, by simpa using List.find?_some hfind⟩
  · rintro ⟨hmem, hk⟩
    cases hfind : toMap key rows k with
    | none => simpa [hk] using List.find?_eq_none.mp hfind row hmem
    | some other =>
      have hother : key other = k := by simpa using List.find?_some hfind
      rw [eq_of_key hkey h (List.mem_of_find?_eq_some hfind) hmem (hother.trans hk.symm)]

theorem Found.toMap {rows before after : List α} {x row : α} (h : Increasing cmp rows)
    (hf : Found cmp rows x before row after) : toMap key rows (key x) = some row :=
  (toMap_eq_some hkey h).mpr ⟨by simp [hf.split], (hkey _ _).mp hf.same⟩

theorem Missing.toMap {rows before after : List α} {x : α} (h : Increasing cmp rows)
    (hm : Missing cmp rows x before after) : toMap key rows (key x) = none := by
  cases hmap : SortedRows.toMap key rows (key x) with
  | none => rfl
  | some row =>
    obtain ⟨hmem, hk⟩ := (toMap_eq_some hkey h).mp hmap
    have heq := (hkey _ _).mpr hk
    rcases List.mem_append.mp (hm.split ▸ hmem) with hmem | hmem
    · simp [hm.smaller row hmem] at heq
    · simp [hm.greater row hmem] at heq

/-- A row between the smaller and the greater ones of a map that lacks its key. -/
theorem toMap_between {before after : List α} {x : α} (h : Increasing cmp (before ++ after))
    (hsmaller : ∀ r ∈ before, cmp r x = .lt) (hgreater : ∀ r ∈ after, cmp r x = .gt) :
    toMap key (before ++ x :: after) =
      Function.update (toMap key (before ++ after)) (key x) (some x) := by
  funext k
  refine Option.ext fun row => ?_
  rw [toMap_eq_some hkey (increasing_between h hsmaller hgreater)]
  by_cases hk : k = key x
  · subst hk
    rw [Function.update_self, Option.some_inj]
    constructor
    · rintro ⟨hmem, hrow⟩
      have heq := (hkey _ _).mpr hrow
      rcases List.mem_append.mp hmem with hmem | hmem
      · simp [hsmaller row hmem] at heq
      · rcases List.mem_cons.mp hmem with rfl | hmem
        · rfl
        · simp [hgreater row hmem] at heq
    · rintro rfl
      exact ⟨by simp, rfl⟩
  · rw [Function.update_of_ne hk, toMap_eq_some hkey h]
    constructor
    · rintro ⟨hmem, rfl⟩
      have hne : row ≠ x := fun hx => hk (by rw [hx])
      simpa [hne] using hmem
    · rintro ⟨hmem, rfl⟩
      refine ⟨?_, rfl⟩
      rcases List.mem_append.mp hmem with hmem | hmem
      · exact List.mem_append_left _ hmem
      · exact List.mem_append_right _ (List.mem_cons_of_mem _ hmem)

/-- The rows around a found one are the map without its key. -/
theorem Found.toMap_erase {rows before after : List α} {x row : α} (h : Increasing cmp rows)
    (hf : Found cmp rows x before row after) :
    SortedRows.toMap key (before ++ after) = Function.update (SortedRows.toMap key rows) (key x) none := by
  have hrest := hf.increasing h
  funext k
  refine Option.ext fun r => ?_
  rw [toMap_eq_some hkey hrest]
  by_cases hk : k = key x
  · subst hk
    rw [Function.update_self]
    refine iff_of_false ?_ (by simp)
    rintro ⟨hmem, hr⟩
    have heq := (hkey _ _).mpr hr
    rcases List.mem_append.mp hmem with hmem | hmem
    · simp [hf.smaller r hmem] at heq
    · simp [hf.greater r hmem] at heq
  · rw [Function.update_of_ne hk, toMap_eq_some hkey h, hf.split]
    refine and_congr_left fun hr => ?_
    have hne : r ≠ row := fun heq => hk (by rw [← hr, heq, (hkey _ _).mp hf.same])
    simp [hne]

/-- Rows taken out by a test leave the map's rows that fail it. -/
theorem toMap_filter {rows : List α} (h : Increasing cmp rows) (p : α → Bool) :
    toMap key (rows.filter p) = fun k => (toMap key rows k).filter p := by
  funext k
  refine Option.ext fun row => ?_
  rw [toMap_eq_some hkey (h.sublist List.filter_sublist), Option.filter_eq_some_iff,
    toMap_eq_some hkey h, List.mem_filter]
  tauto

end Map

end SortedRows

/-! ### Rows that are told apart by a key: a row replaced by one of its key, and counting the rows of a
kind. -/
namespace Keyed

variable {ρ κ : Type*} [DecidableEq κ] (key : ρ → κ)

/-- The row of this key replaced. -/
def replace (rows : List ρ) (new : ρ) : List ρ :=
  rows.map fun row => if key row = key new then new else row

variable {key} {rows : List ρ} {new : ρ}

@[simp] theorem keys_replace : (replace key rows new).map key = rows.map key := by
  rw [replace, List.map_map]
  apply List.map_congr_left
  intro row hrow
  simp only [Function.comp_apply]
  split
  · next heq => exact heq.symm
  · rfl

theorem mem_replace {row : ρ} (h : row ∈ replace key rows new) :
    (row = new ∧ ∃ old ∈ rows, key old = key new) ∨ (row ∈ rows ∧ key row ≠ key new) := by
  obtain ⟨old, hold, rfl⟩ := List.mem_map.mp h
  by_cases heq : key old = key new
  · exact .inl ⟨if_pos heq, old, hold, heq⟩
  · rw [if_neg heq]
    exact .inr ⟨hold, heq⟩

theorem mem_replace_self {old : ρ} (hold : old ∈ rows) (heq : key old = key new) :
    new ∈ replace key rows new :=
  List.mem_map.mpr ⟨old, hold, if_pos heq⟩

theorem mem_replace_other {row : ρ} (hrow : row ∈ rows) (hne : key row ≠ key new) :
    row ∈ replace key rows new :=
  List.mem_map.mpr ⟨row, hrow, if_neg hne⟩

/-- A replacement counts only where what it replaces did. -/
theorem countP_replace_le {p : ρ → Bool}
    (h : ∀ old ∈ rows, key old = key new → p new = true → p old = true) :
    (replace key rows new).countP p ≤ rows.countP p := by
  rw [replace, List.countP_map]
  refine List.countP_mono_left fun row hrow hp => ?_
  by_cases heq : key row = key new
  · exact h row hrow heq (by simpa [heq] using hp)
  · simpa [heq] using hp

/-- One row that counts, left out. -/
theorem countP_others_lt {p : ρ → Bool} {row : ρ} (hrow : row ∈ rows) (hp : p row = true) :
    rows.countP (fun other => p other && decide (key other ≠ key row)) < rows.countP p := by
  induction rows with
  | nil => cases hrow
  | cons first rows ih =>
    have hle : rows.countP (fun other => p other && decide (key other ≠ key row)) ≤ rows.countP p :=
      List.countP_mono_left fun other _ hother => (Bool.and_eq_true_iff.mp hother).1
    rcases List.mem_cons.mp hrow with rfl | hrow
    · rw [List.countP_cons_of_pos hp, List.countP_cons_of_neg (by simp)]
      omega
    · have hlt := ih hrow
      rw [List.countP_cons, List.countP_cons]
      by_cases hfirst : p first = true
      · simp only [hfirst, if_true, Bool.true_and]
        split <;> omega
      · simp only [hfirst, Bool.false_and, Bool.false_eq_true, if_false]
        omega

/-- A key is that of one row at most. -/
theorem countP_key_le (h : (rows.map key).Nodup) (k : κ) :
    rows.countP (fun row => decide (key row = k)) ≤ 1 := by
  have hcount := List.nodup_iff_count_le_one.mp h k
  rw [List.count_eq_countP, List.countP_map] at hcount
  refine Nat.le_trans (List.countP_mono_left fun row _ hrow => ?_) hcount
  simpa using hrow

/-- What counts besides some keys, and besides one key more. -/
theorem countP_notMem_le (p : ρ → Bool) (k : κ) (keys : List κ) :
    rows.countP (fun row => p row && decide (key row ∉ keys)) ≤
      rows.countP (fun row => p row && decide (key row ∉ k :: keys)) +
        rows.countP (fun row => p row && decide (key row = k)) := by
  induction rows with
  | nil => simp
  | cons row rows ih =>
    simp only [List.countP_cons, List.mem_cons]
    by_cases hk : key row = k <;> by_cases hkeys : key row ∈ keys <;> cases p row <;> simp_all <;> omega

end Keyed
