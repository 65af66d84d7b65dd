import Agiru.Al.Token
import Mathlib.Data.List.Perm.Basic

/-! The controls of pages, and the operations of their extensions: `Splice`, `TakeControls`, `SpliceOperations`. -/
namespace Agiru.Extension
open Al (Token)

/-- What names are compared by. -/
abbrev Key : Type := List Char

def lowerKey (name : String) : Key := name.toList.map Al.lower

structure Property where
  name : String
  value : List Token
  text : String
  deriving DecidableEq

/-- A control of a page or of an operation, or an operation: its kind, and the name of its anchor. -/
inductive Control
  | mk (kind name : String) (properties : List Property) (children : List Control)

variable {operation : Control}

namespace Control

def kind : Control → String
  | mk kind _ _ _ => kind

def properties : Control → List Property
  | mk _ _ properties _ => properties

def children : Control → List Control
  | mk _ _ _ children => children

def key : Control → Key
  | mk _ name _ _ => lowerKey name

def withProperties (properties : List Property) : Control → Control
  | mk kind name _ children => mk kind name properties children

def withChildren (children : List Control) : Control → Control
  | mk kind name properties _ => mk kind name properties children

end Control

/-! ### One operation -/

/-- A property takes the place of the first of its name. -/
def modifyProperty (properties : List Property) (property : Property) : List Property :=
  match properties.findIdx? fun one => lowerKey one.name = lowerKey property.name with
  | some standing => properties.set standing property
  | none => properties ++ [property]

def Is (operation : Control) (kind : String) : Prop := lowerKey operation.kind = lowerKey kind

instance (operation : Control) (kind : String) : Decidable (Is operation kind) :=
  inferInstanceAs (Decidable (_ = _))

/-- Where an operation puts its controls, in the order that `Splice` asks. -/
inductive Where
  | modify
  | addfirst
  | addlast
  | addbefore
  | addafter
  deriving DecidableEq

def whereOf (operation : Control) : Where :=
  if Is operation "modify" then .modify
  else if Is operation "addfirst" then .addfirst
  else if Is operation "addlast" then .addlast
  else if Is operation "addbefore" then .addbefore
  else .addafter

/-- What `Splice` makes of the anchor and of the controls behind it. -/
def spliceAt (operation anchor : Control) (rest : List Control) : List Control :=
  match whereOf operation with
  | .modify => anchor.withProperties (operation.properties.foldl modifyProperty anchor.properties) :: rest
  | .addfirst => anchor.withChildren (operation.children ++ anchor.children) :: rest
  | .addlast => anchor.withChildren (anchor.children ++ operation.children) :: rest
  | .addbefore => operation.children ++ anchor :: rest
  | .addafter => anchor :: (operation.children ++ rest)

mutual

/-- `Splice`, at the control that `NamedControl` finds: the first of the name, a control before its children and
these before the controls behind it. -/
def splice (operation : Control) : List Control → Option (List Control)
  | [] => none
  | control :: rest =>
    if control.key = operation.key then some (spliceAt operation control rest)
    else
      match spliceChildren operation control with
      | some control => some (control :: rest)
      | none => (splice operation rest).map (control :: ·)

def spliceChildren (operation : Control) : Control → Option Control
  | .mk kind name properties children => (splice operation children).map (.mk kind name properties)

end

/-! ### All operations -/

def IsAnOperation (control : Control) : Prop :=
  Is control "addfirst" ∨ Is control "addlast" ∨ Is control "addafter" ∨ Is control "addbefore" ∨
    Is control "modify"

instance (control : Control) : Decidable (IsAnOperation control) := inferInstanceAs (Decidable (_ ∨ _))

/-- `TakeControls`: what it has taken into the section, how many operations it has placed, and how many not. -/
def takeControls : List Control → List Control → List Control × Nat × Nat
  | into, [] => (into, 0, 0)
  | into, control :: more =>
    if IsAnOperation control then
      match splice control into with
      | some into =>
        let (into, placed, unplaced) := takeControls into more
        (into, placed + 1, unplaced)
      | none =>
        let (into, placed, unplaced) := takeControls (into ++ [control]) more
        (into, placed, unplaced + 1)
    else takeControls (into ++ [control]) more

/-- One turn of the loop of `SpliceOperations`: the section, the operations to come again, and whether one has
moved. -/
def sweep : List Control → List Control → List Control × List Control × Bool
  | controls, [] => (controls, [], false)
  | controls, operation :: waiting =>
    match splice operation controls with
    | some controls =>
      let (controls, again, _) := sweep controls waiting
      (controls, again, true)
    | none =>
      let (controls, again, moved) := sweep controls waiting
      (controls, operation :: again, moved)

/-- The loop of `SpliceOperations`, in so many turns at most. -/
def sweeps : Nat → List Control → List Control → Option (List Control × List Control)
  | 0, _, _ => none
  | turns + 1, controls, waiting =>
    if waiting = [] then some (controls, waiting)
    else
      let (controls, again, moved) := sweep controls waiting
      if moved then sweeps turns controls again else some (controls, again)

/-- `SpliceOperations` of a section, and how many operations are unplaced by then. -/
def spliceOperations (controls : List Control) (unplaced : Nat) : Option (List Control × Nat) :=
  let waiting := controls.filter fun control => IsAnOperation control
  if waiting = [] then some (controls, unplaced)
  else do
    let (controls, waiting) ← sweeps (waiting.length + 1) (controls.filter fun control => ¬ IsAnOperation
        control) waiting
    some (controls ++ waiting, unplaced + waiting.length)

/-- `MergePageExtensions`, of one section of a page. -/
def mergeSection (base : List Control) (extensions : List (List Control)) (unplaced : Nat) :
    Option (List Control × Nat) :=
  spliceOperations (extensions.foldl (fun into extension => (takeControls into extension).1) base) unplaced

/-! ### Where the controls of a page stand.

A row is a control, or the page, and its children in their order; a layout is all rows. An operation changes one
row and brings those of its own controls. -/

/-- A parent, which is none for the page itself, and its children. -/
abbrev Row : Type := Option Key × List Key

def keys (controls : List Control) : List Key := controls.map Control.key

mutual

/-- All names, a control before its children and these before the controls behind it. -/
def names : List Control → List Key
  | [] => []
  | control :: rest => control.names ++ names rest

def Control.names : Control → List Key
  | .mk _ name _ children => lowerKey name :: Extension.names children

end

mutual

/-- The rows below controls. -/
def rows : List Control → List Row
  | [] => []
  | control :: rest => control.rows ++ rows rest

def Control.rows : Control → List Row
  | .mk _ name _ children => (some (lowerKey name), keys children) :: Extension.rows children

end

def layout (controls : List Control) : List Row := (none, keys controls) :: rows controls

theorem Control.names_eq (control : Control) : control.names =
    control.key :: Extension.names control.children := by
  cases control
  rw [Control.names]
  rfl

@[simp] theorem names_append (f g : List Control) : names (f ++ g) = names f ++ names g := by
  induction f with
  | nil => rfl
  | cons control f ih => rw [List.cons_append, names, names, ih, List.append_assoc]

@[simp] theorem rows_append (f g : List Control) : rows (f ++ g) = rows f ++ rows g := by
  induction f with
  | nil => rfl
  | cons control f ih => rw [List.cons_append, rows, rows, ih, List.append_assoc]

@[simp] theorem keys_append (f g : List Control) : keys (f ++ g) = keys f ++ keys g := List.map_append

mutual

/-- Every control stands in one row. -/
theorem names_perm : ∀ f : List Control, (names f).Perm (keys f ++ (rows f).flatMap Prod.snd)
  | [] => .refl _
  | control :: rest => by
    have hcontrol := Control.names_perm control
    have hrest := names_perm rest
    rw [names, rows, List.flatMap_append]
    refine (hcontrol.append hrest).trans ?_
    change (control.key :: (control.rows.flatMap Prod.snd ++ (keys rest ++ (rows rest).flatMap Prod.snd))).Perm
      (control.key :: (keys rest ++ (control.rows.flatMap Prod.snd ++ (rows rest).flatMap Prod.snd)))
    refine List.Perm.cons _ ?_
    rw [← List.append_assoc, ← List.append_assoc]
    exact List.perm_append_comm.append_right _

theorem Control.names_perm : ∀ control : Control, control.names.Perm (control.key :: control.rows.flatMap Prod.snd)
  | .mk _ name _ children => by
    rw [Control.names, Control.rows]
    exact (names_perm children).cons _

end

/-- The layout has the names, each in one place. -/
theorem layout_names (f : List Control) : ((layout f).flatMap Prod.snd).Perm (names f) := (names_perm f).symm

mutual

theorem splice_isNone (operation : Control) : ∀ f : List Control, splice operation f = none ↔
    operation.key ∉ names f
  | [] => by simp [splice, names]
  | control :: rest => by
    have hcontrol := spliceChildren_isNone operation control
    have hrest := splice_isNone operation rest
    rw [splice, names, control.names_eq]
    by_cases hkey : control.key = operation.key
    · simp [hkey]
    · rw [if_neg hkey]
      have hne : operation.key ≠ control.key := Ne.symm hkey
      cases hchild : spliceChildren operation control with
      | some spliced =>
        rw [hchild] at hcontrol
        simp only [reduceCtorEq, false_iff, not_not] at hcontrol
        simp [hcontrol]
      | none =>
        have hnot := hcontrol.mp hchild
        simp [hnot, hne, hrest]

theorem spliceChildren_isNone (operation : Control) :
    ∀ control : Control, spliceChildren operation control = none ↔ operation.key ∉ Extension.names control.children
  | .mk kind name properties children => by
    rw [spliceChildren, Option.map_eq_none_iff]
    exact splice_isNone operation children

end

/-! ### What an operation changes -/

/-- The controls that an operation brings. -/
def introduced (operation : Control) : List Control :=
  if whereOf operation = .modify then [] else operation.children

/-- A row with the controls of an operation: at its front or its back if the anchor is the parent, next to the
anchor if this stands in it. -/
def Put (operation : Control) (parent : Option Key) (row row' : List Key) : Prop :=
  match whereOf operation with
  | .modify => parent = some operation.key ∧ row' = row
  | .addfirst => parent = some operation.key ∧ row' = keys operation.children ++ row
  | .addlast => parent = some operation.key ∧ row' = row ++ keys operation.children
  | .addbefore => ∃ before after, row = before ++ operation.key :: after ∧
      row' = before ++ (keys operation.children ++ operation.key :: after)
  | .addafter => ∃ before after, row = before ++ operation.key :: after ∧
      row' = before ++ operation.key :: (keys operation.children ++ after)

/-- The same rows, but for one. -/
def Changed (operation : Control) (old new : List Row) : Prop :=
  ∃ parent row row' others, old.Perm ((parent, row) :: others) ∧
    new.Perm ((parent, row') :: (rows (introduced operation) ++ others)) ∧ Put operation parent row row'

theorem Put.cons {row row' : List Key} (h : Put operation none row row') (key : Key) :
    Put operation none (key :: row) (key :: row') := by
  unfold Put at h ⊢
  cases hwhere : whereOf operation <;> rw [hwhere] at h <;> dsimp only at h ⊢
  case addbefore =>
    obtain ⟨before, after, rfl, rfl⟩ := h
    exact ⟨key :: before, after, rfl, rfl⟩
  case addafter =>
    obtain ⟨before, after, rfl, rfl⟩ := h
    exact ⟨key :: before, after, rfl, rfl⟩
  all_goals cases h.1

theorem Put.inside {row row' : List Key} (h : Put operation none row row') (key : Key) :
    Put operation (some key) row row' := by
  unfold Put at h ⊢
  cases hwhere : whereOf operation <;> rw [hwhere] at h <;> dsimp only at h ⊢
  case addbefore => exact h
  case addafter => exact h
  all_goals cases h.1

/-- More rows beside those that change. -/
theorem Changed.append_right {old new : List Row} (h : Changed operation old new)
    (more : List Row) : Changed operation (old ++ more) (new ++ more) := by
  obtain ⟨parent, row, row', others, hold, hnew, hput⟩ := h
  refine ⟨parent, row, row', others ++ more, hold.append_right more, ?_, hput⟩
  rw [← List.append_assoc]
  exact hnew.append_right more

theorem Changed.append_left {old new : List Row} (h : Changed operation old new)
    (more : List Row) : Changed operation (more ++ old) (more ++ new) := by
  obtain ⟨parent, row, row', others, hold, hnew, hput⟩ := h.append_right more
  exact ⟨parent, row, row', others, List.perm_append_comm.trans hold, List.perm_append_comm.trans hnew, hput⟩

/-- What `Splice` does to controls: it changes their own row, or one below them. -/
def Effect (operation : Control) (f f' : List Control) : Prop :=
  (Put operation none (keys f) (keys f') ∧ (rows f').Perm (rows (introduced operation) ++ rows f)) ∨
    (keys f' = keys f ∧ Changed operation (rows f) (rows f'))

theorem introduced_of_ne (h : whereOf operation ≠ .modify) : introduced operation = operation.children := if_neg h

/-- The row of the anchor's own children changes. -/
theorem effect_below {kind : String} {name : String} {properties properties' : List Property}
    {children children' rest : List Control} (hname : lowerKey name = operation.key)
    (hput : Put operation (some operation.key) (keys children) (keys children'))
    (hrows : (rows children').Perm (rows (introduced operation) ++ rows children)) :
    Effect operation (.mk kind name properties children :: rest) (.mk kind name properties' children' :: rest) := by
  refine .inr ⟨rfl, some operation.key, keys children, keys children', rows children ++ rows rest, ?_, ?_, hput⟩
  · rw [rows, Control.rows, hname]
    rfl
  · rw [rows, Control.rows, hname, ← List.append_assoc]
    exact (hrows.append_right (rows rest)).cons _

theorem spliceAt_effect {control : Control} (hkey : control.key = operation.key) (rest : List Control) :
    Effect operation (control :: rest) (spliceAt operation control rest) := by
  obtain ⟨kind, name, properties, children⟩ := control
  have hname : lowerKey name = operation.key := hkey
  have hintroduced : whereOf operation ≠ .modify → introduced operation = operation.children := introduced_of_ne
  cases hwhere : whereOf operation with
  | modify =>
    simp only [spliceAt, hwhere, Control.withProperties]
    refine effect_below hname ?_ ?_
    · simp only [Put, hwhere, and_self]
    · rw [introduced, if_pos hwhere]
      exact .refl _
  | addfirst =>
    simp only [spliceAt, hwhere]
    change Effect operation _ (.mk kind name properties (operation.children ++ children) :: rest)
    refine effect_below hname ?_ ?_
    · simp only [Put, hwhere, keys_append, and_self]
    · rw [hintroduced (by rw [hwhere]; decide), rows_append]
  | addlast =>
    simp only [spliceAt, hwhere]
    change Effect operation _ (.mk kind name properties (children ++ operation.children) :: rest)
    refine effect_below hname ?_ ?_
    · simp only [Put, hwhere, keys_append, and_self]
    · rw [hintroduced (by rw [hwhere]; decide), rows_append]
      exact List.perm_append_comm
  | addbefore =>
    left
    refine ⟨?_, ?_⟩
    · simp only [Put, hwhere, spliceAt]
      refine ⟨[], keys rest, ?_, ?_⟩
      · rw [← hname]
        rfl
      · rw [← hname, keys_append]
        rfl
    · simp only [spliceAt, hwhere, rows_append]
      rw [hintroduced (by rw [hwhere]; decide)]
  | addafter =>
    left
    refine ⟨?_, ?_⟩
    · simp only [Put, hwhere, spliceAt]
      refine ⟨[], keys rest, ?_, ?_⟩
      · rw [← hname]
        rfl
      · rw [← hname]
        change _ :: keys (operation.children ++ rest) = _
        rw [keys_append]
        rfl
    · simp only [spliceAt, hwhere, rows, rows_append]
      rw [hintroduced (by rw [hwhere]; decide), ← List.append_assoc, ← List.append_assoc]
      exact List.perm_append_comm.append_right _

mutual

theorem splice_effect (operation : Control) :
    ∀ f f' : List Control, splice operation f = some f' → Effect operation f f'
  | [], _, h => by cases h
  | control :: rest, f', h => by
    rw [splice] at h
    split at h
    · next hkey =>
      obtain rfl := Option.some.inj h
      exact spliceAt_effect hkey rest
    · split at h
      · next spliced hspliced =>
        obtain rfl := Option.some.inj h
        obtain ⟨hkey, hchanged⟩ := spliceChildren_effect operation control spliced hspliced
        refine .inr ⟨?_, ?_⟩
        · change spliced.key :: keys rest = control.key :: keys rest
          rw [hkey]
        · rw [rows, rows]
          exact hchanged.append_right (rows rest)
      · obtain ⟨rest', hrest', rfl⟩ := Option.map_eq_some_iff.mp h
        rcases splice_effect operation rest rest' hrest' with ⟨hput, hrows⟩ | ⟨hkeys, hchanged⟩
        · refine .inl ⟨hput.cons control.key, ?_⟩
          rw [rows, rows]
          refine (hrows.append_left control.rows).trans ?_
          rw [← List.append_assoc, ← List.append_assoc]
          exact List.perm_append_comm.append_right _
        · refine .inr ⟨?_, ?_⟩
          · change control.key :: keys rest' = control.key :: keys rest
            rw [hkeys]
          · rw [rows, rows]
            exact hchanged.append_left control.rows

theorem spliceChildren_effect (operation : Control) : ∀ control spliced : Control,
    spliceChildren operation control = some spliced →
      spliced.key = control.key ∧ Changed operation control.rows spliced.rows
  | .mk kind name properties children, spliced, h => by
    rw [spliceChildren] at h
    obtain ⟨children', hchildren', rfl⟩ := Option.map_eq_some_iff.mp h
    refine ⟨rfl, ?_⟩
    rw [Control.rows, Control.rows]
    rcases splice_effect operation children children' hchildren' with ⟨hput, hrows⟩ | ⟨hkeys, hchanged⟩
    · exact ⟨some (lowerKey name), keys children, keys children', rows children, .refl _, hrows.cons _,
        hput.inside _⟩
    · rw [hkeys]
      exact hchanged.append_left [(some (lowerKey name), keys children)]

end

/-- An operation changes one row of the layout, and brings those of its controls. -/
theorem splice_layout {f f' : List Control} (h : splice operation f = some f') :
    Changed operation (layout f) (layout f') := by
  rcases splice_effect operation f f' h with ⟨hput, hrows⟩ | ⟨hkeys, hchanged⟩
  · exact ⟨none, keys f, keys f', rows f, .refl _, hrows.cons _, hput⟩
  · rw [layout, layout, hkeys]
    exact hchanged.append_left [(none, keys f)]

end Agiru.Extension
