import Agiru.Extension.Layout
import Mathlib.Data.List.Nodup
import Mathlib.Data.List.Pairwise

/-! Where the controls of operations land.

What is declared together stays together: a row of the page, or of an operation, is found in a row of the merged
page, in its order, and an operation is found where it says beside what was declared there. -/
namespace Agiru.Extension

variable {operation : Control} {parent : Option Key} {row : List Key} {f controls : List Control}
variable {placed controls' : List Control}
variable {row' : List Key}

/-! ### What is declared -/

/-- The rows of the page and those below the controls of operations. -/
def declared (base placed : List Control) : List Row :=
  layout base ++ placed.flatMap fun operation => rows (introduced operation)

/-- What is declared side by side: these rows, and the controls of an operation. -/
def siblings (base placed : List Control) : List (List Key) :=
  (declared base placed).map Prod.snd ++ placed.map fun operation => keys (introduced operation)

/-- The controls of an operation stand where it says: as first or as last children of its anchor, before or behind
all that are declared with it, or directly before or after the anchor among those that are declared beside it. -/
def Landed (base placed controls : List Control) (operation : Control) : Prop :=
  match whereOf operation with
  | .modify => operation.key ∈ names controls
  | .addfirst => ∃ row standing, (some operation.key, row) ∈ declared base placed ∧
      (some operation.key, standing) ∈ layout controls ∧ (keys operation.children ++ row).Sublist standing
  | .addlast => ∃ row standing, (some operation.key, row) ∈ declared base placed ∧
      (some operation.key, standing) ∈ layout controls ∧ (row ++ keys operation.children).Sublist standing
  | .addbefore => ∃ before after parent standing, before ++ operation.key :: after ∈ siblings base placed ∧
      (parent, standing) ∈ layout controls ∧
        (before ++ (keys operation.children ++ operation.key :: after)).Sublist standing
  | .addafter => ∃ before after parent standing, before ++ operation.key :: after ∈ siblings base placed ∧
      (parent, standing) ∈ layout controls ∧
        (before ++ operation.key :: (keys operation.children ++ after)).Sublist standing

/-- A page with the controls of operations. -/
structure Stands (base placed controls : List Control) : Prop where
  names : (names controls).Perm (names base ++ placed.flatMap fun operation => names (introduced operation))
  declared : ∀ row ∈ declared base placed, ∃ standing, (row.1, standing) ∈ layout controls ∧ row.2.Sublist standing
  beside : ∀ row ∈ siblings base placed, ∃ parent standing, (parent, standing) ∈ layout controls ∧
      row.Sublist standing
  landed : ∀ operation ∈ placed, Landed base placed controls operation

/-! ### One operation -/

theorem Put.perm (h : Put operation parent row row') : row'.Perm (keys (introduced operation) ++ row) := by
  unfold Put at h
  cases hwhere : whereOf operation <;> rw [hwhere] at h <;> rw [introduced, hwhere] <;> dsimp only at h
  case modify | addfirst =>
    obtain ⟨-, rfl⟩ := h
    exact .refl _
  case addlast =>
    obtain ⟨-, rfl⟩ := h
    exact List.perm_append_comm
  case addbefore =>
    obtain ⟨before, after, rfl, rfl⟩ := h
    exact List.perm_append_comm_assoc _ _ _
  case addafter =>
    obtain ⟨before, after, rfl, rfl⟩ := h
    have hkey := (List.perm_append_comm_assoc [operation.key] (keys operation.children) after).append_left before
    exact hkey.trans (List.perm_append_comm_assoc _ _ _)

theorem Put.sublist
    (h : Put operation parent row row') : row.Sublist row' ∧ (keys (introduced operation)).Sublist row' := by
  unfold Put at h
  cases hwhere : whereOf operation <;> rw [hwhere] at h <;> rw [introduced, hwhere] <;> dsimp only at h
  case modify =>
    obtain ⟨-, rfl⟩ := h
    exact ⟨.refl _, List.nil_sublist _⟩
  case addfirst =>
    obtain ⟨-, rfl⟩ := h
    exact ⟨List.sublist_append_right _ _, List.sublist_append_left _ _⟩
  case addlast =>
    obtain ⟨-, rfl⟩ := h
    exact ⟨List.sublist_append_left _ _, List.sublist_append_right _ _⟩
  case addbefore =>
    obtain ⟨before, after, rfl, rfl⟩ := h
    exact ⟨(List.sublist_append_right _ _).append_left _,
      (List.sublist_append_left _ _).trans (List.sublist_append_right _ _)⟩
  case addafter =>
    obtain ⟨before, after, rfl, rfl⟩ := h
    exact ⟨((List.sublist_append_right _ _).cons_cons _).append_left _,
      ((List.sublist_append_left _ _).cons _).trans (List.sublist_append_right _ _)⟩

/-- All rows grow, and those of the operation are new. -/
theorem Changed.grows {old new : List Row} (h : Changed operation old new) :
    (∀ row ∈ old, ∃ standing, (row.1, standing) ∈ new ∧ row.2.Sublist standing) ∧
      (∀ row ∈ rows (introduced operation), row ∈ new) ∧
        ∃ parent standing, (parent, standing) ∈ new ∧ (keys (introduced operation)).Sublist standing := by
  obtain ⟨parent, row, row', others, hold, hnew, hput⟩ := h
  have hhead : (parent, row') ∈ new := hnew.mem_iff.mpr List.mem_cons_self
  refine ⟨fun other hother => ?_, fun other hother => ?_, parent, row', hhead, hput.sublist.2⟩
  · rcases List.mem_cons.mp (hold.mem_iff.mp hother) with rfl | hother
    · exact ⟨row', hhead, hput.sublist.1⟩
    · exact ⟨other.2, hnew.mem_iff.mpr (List.mem_cons_of_mem _ (List.mem_append_right _ hother)), .refl _⟩
  · exact hnew.mem_iff.mpr (List.mem_cons_of_mem _ (List.mem_append_left _ hother))

theorem splice_names {f' : List Control} (h : splice operation f = some f') :
    (names f').Perm (names f ++ names (introduced operation)) := by
  obtain ⟨parent, row, row', others, hold, hnew, hput⟩ := splice_layout h
  refine List.perm_iff_count.mpr fun key => ?_
  have hcontrols := (layout_names f).symm.trans (hold.flatMap_right Prod.snd) |>.count_eq key
  have hspliced := (layout_names f').symm.trans (hnew.flatMap_right Prod.snd) |>.count_eq key
  have hbrought := (names_perm (introduced operation)).count_eq key
  have hrow := hput.perm.count_eq key
  simp only [List.flatMap_cons, List.flatMap_append, List.count_append] at hcontrols hspliced hbrought hrow ⊢
  omega

/-! ### Names stand once -/

mutual

theorem rows_fst : ∀ f : List Control, (rows f).map Prod.fst = (names f).map some
  | [] => rfl
  | control :: rest => by
    rw [rows, Extension.names, List.map_append, List.map_append, control.rows_fst, rows_fst rest]

theorem Control.rows_fst : ∀ control : Control, control.rows.map Prod.fst = control.names.map some
  | .mk _ _ _ children => by
    rw [Control.rows, Control.names, List.map_cons, List.map_cons, rows_fst children]

end

/-- A control has a row of its own. -/
theorem exists_row {key : Key} (h : key ∈ names f) : ∃ row, (some key, row) ∈ rows f := by
  have hfst : some key ∈ (rows f).map Prod.fst := by
    rw [rows_fst]
    exact List.mem_map_of_mem h
  obtain ⟨⟨_, row⟩, hrow, rfl⟩ := List.mem_map.mp hfst
  exact ⟨row, hrow⟩

/-- A row belongs to one parent. -/
theorem row_unique (h : (names f).Nodup)
    (hrow : (parent, row) ∈ layout f) (hrow' : (parent, row') ∈ layout f) : row = row' := by
  have hfst : ((layout f).map Prod.fst).Nodup := by
    rw [layout, List.map_cons, rows_fst, List.nodup_cons]
    exact ⟨by simp, h.map fun _ _ hsome => Option.some.inj hsome⟩
  exact congrArg Prod.snd (List.inj_on_of_nodup_map hfst hrow hrow' rfl)

/-- A name stands in one row. -/
theorem parent_unique (h : (names f).Nodup) {key : Key} {row row' : Row} (hrow : row ∈ layout f)
    (hrow' : row' ∈ layout f) (hkey : key ∈ row.2) (hkey' : key ∈ row'.2) : row = row' := by
  have hflat : ((layout f).flatMap Prod.snd).Nodup := (layout_names f).nodup_iff.mpr h
  by_contra hne
  have hpairwise := (List.nodup_flatMap.mp hflat).2
  have hsymm : Std.Symm (Function.onFun List.Disjoint (Prod.snd : Row → List Key)) :=
    ⟨fun _ _ hdisjoint _ hkey hkey' => hdisjoint hkey' hkey⟩
  exact hpairwise.forall hrow hrow' hne hkey hkey'

theorem row_nodup (h : (names f).Nodup) {row : Row} (hrow : row ∈ layout f) : row.2.Nodup :=
  (List.nodup_flatMap.mp ((layout_names f).nodup_iff.mpr h)).1 row hrow

/-- What stands beside a name in part of a list stands there in the list. -/
theorem sublist_beside {α : Type*} {part before after : List α} {a : α} (h : part.Sublist (before ++ a :: after))
    (ha : a ∈ part) (hnodup : (before ++ a :: after).Nodup) :
    ∃ left right, part = left ++ a :: right ∧ left.Sublist before ∧ right.Sublist after := by
  obtain ⟨left, rest, rfl, hleft, hrest⟩ := List.sublist_append_iff.mp h
  obtain ⟨-, hafter, hdisjoint⟩ := List.nodup_append'.mp hnodup
  have hnot : a ∉ left := fun hmem => hdisjoint (hleft.subset hmem) List.mem_cons_self
  have hmem : a ∈ rest := (List.mem_append.mp ha).resolve_left hnot
  cases hrest with
  | cons _ hrest => exact absurd (hrest.subset hmem) (List.nodup_cons.mp hafter).1
  | cons_cons _ hrest => exact ⟨left, _, rfl, hleft, hrest⟩

/-- A name of a page is declared in a row. -/
theorem Stands.declared_beside {base : List Control} (h : Stands base placed controls) {key : Key}
    (hkey : key ∈ Extension.names controls) : ∃ row ∈ siblings base placed, key ∈ row := by
  rcases List.mem_append.mp (h.names.mem_iff.mp hkey) with hbase | hplaced
  · obtain ⟨row, hrow, hmem⟩ := List.mem_flatMap.mp ((layout_names base).mem_iff.mpr hbase)
    exact ⟨row.2, List.mem_append_left _ (List.mem_map_of_mem (List.mem_append_left _ hrow)), hmem⟩
  · obtain ⟨operation, hoperation, hmem⟩ := List.mem_flatMap.mp hplaced
    rcases List.mem_append.mp ((names_perm (introduced operation)).mem_iff.mp hmem) with htop | hinner
    · exact ⟨_, List.mem_append_right _ (List.mem_map_of_mem hoperation), htop⟩
    · obtain ⟨row, hrow, hmem⟩ := List.mem_flatMap.mp hinner
      exact ⟨row.2, List.mem_append_left _ (List.mem_map_of_mem (List.mem_append_right _
        (List.mem_flatMap.mpr ⟨operation, hoperation, hrow⟩))), hmem⟩

/-- A control of a page has a declared row. -/
theorem Stands.declared_row {base : List Control} (h : Stands base placed controls) {key : Key}
    (hkey : key ∈ Extension.names controls) : ∃ row, (some key, row) ∈ Extension.declared base placed := by
  rcases List.mem_append.mp (h.names.mem_iff.mp hkey) with hbase | hplaced
  · obtain ⟨row, hrow⟩ := exists_row hbase
    exact ⟨row, List.mem_append_left _ (List.mem_cons_of_mem _ hrow)⟩
  · obtain ⟨operation, hoperation, hmem⟩ := List.mem_flatMap.mp hplaced
    obtain ⟨row, hrow⟩ := exists_row hmem
    exact ⟨row, List.mem_append_right _ (List.mem_flatMap.mpr ⟨operation, hoperation, hrow⟩)⟩

/-! ### One operation more -/

theorem declared_concat (base placed : List Control) (operation : Control) :
    declared base (placed ++ [operation]) = declared base placed ++ rows (introduced operation) := by
  simp [declared]

theorem mem_siblings_concat {base : List Control} : row ∈ siblings base (placed ++ [operation]) ↔
      row ∈ siblings base placed ∨ (∃ parent, (parent, row) ∈ rows (introduced operation)) ∨
        row = keys (introduced operation) := by
  have hrows : row ∈ (rows (introduced operation)).map Prod.snd ↔
      ∃ parent, (parent, row) ∈ rows (introduced operation) := by
    rw [List.mem_map]
    exact ⟨fun ⟨pair, hpair, hsnd⟩ => ⟨pair.1, hsnd ▸ hpair⟩, fun ⟨parent, hpair⟩ => ⟨(parent, row), hpair, rfl⟩⟩
  rw [siblings, siblings, declared_concat, List.map_append, List.map_append, List.mem_append, List.mem_append,
    List.mem_append, List.mem_append, hrows, List.map_cons, List.map_nil, List.mem_singleton]
  exact or_or_or_comm

/-- What has landed stands on as more is put. -/
theorem Landed.mono {base more : List Control} (h : Landed base placed controls operation)
    (hrows : ∀ row ∈ layout controls, ∃ standing, (row.1, standing) ∈ layout controls' ∧ row.2.Sublist standing)
    (hnames : ∀ key ∈ names controls, key ∈ names controls') : Landed base (placed ++ more) controls'
        operation := by
  have hdeclared : ∀ row ∈ declared base placed, row ∈ declared base (placed ++ more) := fun row hrow => by
    rw [declared, List.flatMap_append, ← List.append_assoc]
    exact List.mem_append_left _ hrow
  have hsiblings : ∀ row ∈ siblings base placed, row ∈ siblings base (placed ++ more) := fun row hrow => by
    rcases List.mem_append.mp hrow with hrow | hrow
    · obtain ⟨pair, hpair, rfl⟩ := List.mem_map.mp hrow
      exact List.mem_append_left _ (List.mem_map_of_mem (hdeclared pair hpair))
    · refine List.mem_append_right _ ?_
      rw [List.map_append]
      exact List.mem_append_left _ hrow
  unfold Landed at h ⊢
  cases hwhere : whereOf operation <;> rw [hwhere] at h <;> dsimp only at h ⊢
  case modify => exact hnames _ h
  case addfirst | addlast =>
    obtain ⟨row, standing, hrow, hstanding, hsub⟩ := h
    obtain ⟨standing', hstanding', hgrows⟩ := hrows _ hstanding
    exact ⟨row, standing', hdeclared _ hrow, hstanding', hsub.trans hgrows⟩
  case addbefore | addafter =>
    obtain ⟨before, after, parent, standing, hrow, hstanding, hsub⟩ := h
    obtain ⟨standing', hstanding', hgrows⟩ := hrows _ hstanding
    exact ⟨before, after, parent, standing', hsiblings _ hrow, hstanding', hsub.trans hgrows⟩

/-- The declared row of a control, in the row where its children stand. -/
theorem Stands.declared_sublist {base : List Control} (h : Stands base placed controls)
    (hnodup : (Extension.names controls).Nodup) {key : Key} (hkey : key ∈ Extension.names controls)
    (hrow : (some key, row) ∈ layout controls) :
    ∃ own, (some key, own) ∈ Extension.declared base placed ∧ own.Sublist row := by
  obtain ⟨own, hown⟩ := h.declared_row hkey
  obtain ⟨standing, hstanding, hsub⟩ := h.declared _ hown
  rw [row_unique hnodup hrow hstanding]
  exact ⟨own, hown, hsub⟩

/-- What is declared beside a control, in the row where it stands. -/
theorem Stands.beside_sublist {base : List Control} (h : Stands base placed controls)
    (hnodup : (Extension.names controls).Nodup) {key : Key} {before after : List Key}
    (hrow : (parent, before ++ key :: after) ∈ layout controls) :
    ∃ left right, left ++ key :: right ∈ siblings base placed ∧ left.Sublist before ∧ right.Sublist after := by
  have hkey : key ∈ Extension.names controls := (layout_names controls).mem_iff.mp
    (List.mem_flatMap.mpr ⟨_, hrow, List.mem_append_right _ List.mem_cons_self⟩)
  obtain ⟨row, hdeclared, hmem⟩ := h.declared_beside hkey
  obtain ⟨parent', standing, hstanding, hsub⟩ := h.beside row hdeclared
  have hsame := parent_unique hnodup hrow hstanding (List.mem_append_right _ List.mem_cons_self) (hsub.subset hmem)
  obtain ⟨rfl, rfl⟩ := Prod.mk.inj hsame
  obtain ⟨left, right, rfl, hleft, hright⟩ := sublist_beside hsub hmem (row_nodup hnodup hrow)
  exact ⟨left, right, hdeclared, hleft, hright⟩

/-- An operation lands where its anchor is found. -/
theorem Stands.landing {base : List Control}
    (h : Stands base placed controls) (hnodup : (Extension.names controls).Nodup)
    (hsplice : splice operation controls = some controls') : Landed base placed controls' operation := by
  have hkey : operation.key ∈ Extension.names controls := by
    by_contra hnot
    rw [(splice_isNone operation controls).mpr hnot] at hsplice
    cases hsplice
  obtain ⟨parent, row, row', others, hold, hnew, hput⟩ := splice_layout hsplice
  have hrow : (parent, row) ∈ layout controls := hold.mem_iff.mpr List.mem_cons_self
  have hrow' : (parent, row') ∈ layout controls' := hnew.mem_iff.mpr List.mem_cons_self
  unfold Put at hput
  unfold Landed
  cases hwhere : whereOf operation <;> rw [hwhere] at hput <;> dsimp only at hput ⊢
  case modify => exact (splice_names hsplice).mem_iff.mpr (List.mem_append_left _ hkey)
  case addfirst =>
    obtain ⟨rfl, rfl⟩ := hput
    obtain ⟨own, hown, hsub⟩ := h.declared_sublist hnodup hkey hrow
    exact ⟨own, _, hown, hrow', hsub.append_left _⟩
  case addlast =>
    obtain ⟨rfl, rfl⟩ := hput
    obtain ⟨own, hown, hsub⟩ := h.declared_sublist hnodup hkey hrow
    exact ⟨own, _, hown, hrow', hsub.append_right _⟩
  case addbefore =>
    obtain ⟨before, after, rfl, rfl⟩ := hput
    obtain ⟨left, right, hbeside, hleft, hright⟩ := h.beside_sublist hnodup hrow
    exact ⟨left, right, parent, _, hbeside, hrow', hleft.append ((hright.cons_cons _).append_left _)⟩
  case addafter =>
    obtain ⟨before, after, rfl, rfl⟩ := hput
    obtain ⟨left, right, hbeside, hleft, hright⟩ := h.beside_sublist hnodup hrow
    exact ⟨left, right, parent, _, hbeside, hrow', hleft.append ((hright.append_left _).cons_cons _)⟩

/-- **One operation more stands where it says**, and all others as they did. -/
theorem Stands.splice {base : List Control}
    (h : Stands base placed controls) (hnodup : (Extension.names controls).Nodup)
    (hsplice : splice operation controls = some controls') : Stands base (placed ++ [operation]) controls' := by
  obtain ⟨hgrows, hbrought, htop⟩ := (splice_layout hsplice).grows
  have hnames := splice_names hsplice
  have hrows : ∀ row ∈ Extension.declared base (placed ++ [operation]),
      ∃ standing, (row.1, standing) ∈ layout controls' ∧ row.2.Sublist standing := fun row hrow => by
    rw [declared_concat] at hrow
    rcases List.mem_append.mp hrow with hrow | hrow
    · obtain ⟨standing, hstanding, hsub⟩ := h.declared row hrow
      obtain ⟨standing', hstanding', hsub'⟩ := hgrows _ hstanding
      exact ⟨standing', hstanding', hsub.trans hsub'⟩
    · exact ⟨row.2, hbrought row hrow, .refl _⟩
  have hmem : ∀ key ∈ Extension.names controls, key ∈ Extension.names controls' := fun key hkey =>
    hnames.mem_iff.mpr (List.mem_append_left _ hkey)
  refine ⟨?_, hrows, fun row hrow => ?_, fun other hother => ?_⟩
  · refine hnames.trans ?_
    rw [List.flatMap_append, ← List.append_assoc]
    simpa using h.names.append_right _
  · rcases mem_siblings_concat.mp hrow with hrow | ⟨parent, hrow⟩ | rfl
    · obtain ⟨parent, standing, hstanding, hsub⟩ := h.beside row hrow
      obtain ⟨standing', hstanding', hsub'⟩ := hgrows _ hstanding
      exact ⟨parent, standing', hstanding', hsub.trans hsub'⟩
    · exact ⟨parent, row, hbrought _ hrow, .refl _⟩
    · exact htop
  · rcases List.mem_append.mp hother with hother | hother
    · exact (h.landed other hother).mono hgrows hmem
    · obtain rfl := List.mem_singleton.mp hother
      have hlanding := h.landing hnodup hsplice
      exact hlanding.mono (fun row hrow => ⟨row.2, hrow, .refl _⟩) fun _ hkey => hkey

/-- The page as it is declared. -/
theorem Stands.base (base : List Control) : Stands base [] base := by
  refine ⟨by simp, fun row hrow => ?_, fun row hrow => ?_, fun _ hnone => nomatch hnone⟩
  · rw [Extension.declared, List.flatMap_nil, List.append_nil] at hrow
    exact ⟨row.2, hrow, .refl _⟩
  · rw [siblings, Extension.declared, List.flatMap_nil, List.append_nil, List.map_nil, List.append_nil] at hrow
    obtain ⟨pair, hpair, rfl⟩ := List.mem_map.mp hrow
    exact ⟨pair.1, pair.2, hpair, .refl _⟩

end Agiru.Extension
