import Agiru.Position.Taken

/-! When a position that is refused leaves the record as it was.

Nothing is written before the whole text is read (`takePosition_of_error`). After that every value
before the refused one stands in the record (`exec_assign_refused`), so that the record is as it was
exactly where those values restate it (`takePosition_whole`). -/
namespace Agiru.Position
open Bytes Procedure Storage

variable {table : TableDef} {language : Int32} {assignments earlier later : List Assignment} {entry : Assignment}
variable {refusal : PositionError}
variable {field : FieldDef} {position : Bytes}

/-- A value that its field takes. -/
def Readable (language : Int32) (assignment : Assignment) : Prop := ∃ value, assignment.read language = .ok value

/-- What an assignment leaves in the fields: a refused one leaves them. -/
def give (language : Int32) (fields : Fields) (assignment : Assignment) : Fields :=
  match assignment.read language with
  | .ok value => Function.update fields assignment.field value
  | .error _ => fields

def given (language : Int32) (assignments : List Assignment) (fields : Fields) : Fields :=
  assignments.foldl (give language) fields

/-- The last assignment to each field gives it what it holds. -/
def Restates (language : Int32) (assignments : List Assignment) (fields : Fields) : Prop :=
  ∀ before entry after, assignments = before ++ entry :: after → (∀ other ∈ after, other.field ≠ entry.field) →
    entry.read language = .ok (fields entry.field)

/-! ### The fields -/

theorem give_self (fields : Fields) {value : FieldHolds entry.field.type} (h : entry.read language = .ok value) :
    give language fields entry entry.field = value := by
  unfold give
  rw [h]
  exact Function.update_self ..

theorem give_other (fields : Fields) (h : entry.field ≠ field) : give language fields entry field = fields field := by
  unfold give
  cases entry.read language with
  | ok value => exact Function.update_of_ne (Ne.symm h) ..
  | error refusal => rfl

theorem given_other (fields : Fields) (h : ∀ entry ∈ assignments, entry.field ≠ field) :
    given language assignments fields field = fields field := by
  induction assignments generalizing fields with
  | nil => rfl
  | cons entry rest ih =>
    obtain ⟨hentry, hrest⟩ := List.forall_mem_cons.mp h
    exact (ih (give language fields entry) hrest).trans (give_other fields hentry)

/-- The last assignment to a field is what it holds after them all. -/
theorem given_last (fields : Fields) {value : FieldHolds entry.field.type}
    (hlast : ∀ other ∈ later, other.field ≠ entry.field) (h : entry.read language = .ok value) :
    given language (earlier ++ entry :: later) fields entry.field = value := by
  unfold given
  rw [List.foldl_append, List.foldl_cons]
  exact (given_other _ hlast).trans (give_self _ h)

/-- A field that is assigned is assigned a last time. -/
theorem last_assigned (h : ∃ entry ∈ assignments, entry.field = field) :
    ∃ before entry after, assignments = before ++ entry :: after ∧ entry.field = field ∧
      ∀ other ∈ after, other.field ≠ field := by
  induction assignments with
  | nil =>
    obtain ⟨entry, hentry, -⟩ := h
    cases hentry
  | cons first rest ih =>
    by_cases hrest : ∃ entry ∈ rest, entry.field = field
    · obtain ⟨before, entry, after, rfl, hfield, hafter⟩ := ih hrest
      exact ⟨first :: before, entry, after, rfl, hfield, hafter⟩
    · have hafter : ∀ other ∈ rest, other.field ≠ field := fun other hother heq => hrest ⟨other, hother, heq⟩
      obtain ⟨entry, hentry, hfield⟩ := h
      rcases List.mem_cons.mp hentry with rfl | hentry
      · exact ⟨[], entry, rest, rfl, hfield, hafter⟩
      · exact absurd hfield (hafter entry hentry)

theorem given_eq_iff (fields : Fields) (h : ∀ entry ∈ assignments, Readable language entry) :
    given language assignments fields = fields ↔ Restates language assignments fields := by
  constructor
  · intro hgiven before entry after hsplit hlast
    subst hsplit
    obtain ⟨value, hvalue⟩ := h entry (List.mem_append_right _ List.mem_cons_self)
    have hheld := @given_last _ before _ _ fields _ hlast hvalue
    rw [hgiven] at hheld
    rw [hheld, hvalue]
  · intro hrestates
    funext field
    by_cases hassigned : ∃ entry ∈ assignments, entry.field = field
    · obtain ⟨before, entry, after, hsplit, rfl, hlast⟩ := last_assigned hassigned
      rw [hsplit]
      exact given_last fields hlast (hrestates before entry after hsplit hlast)
    · apply given_other
      intro entry hentry hfield
      exact hassigned ⟨entry, hentry, hfield⟩

/-! ### The run -/

theorem exec_assign (placed : Placed table) {value : FieldHolds entry.field.type}
    (h : entry.read language = .ok value) :
    exec (assign language entry) placed =
      (.ok ⟨⟩, {placed with fields := give language placed.fields entry}) := by
  unfold assign give
  rw [h]
  rfl

/-- Assignments that are read are all written. -/
theorem exec_assign_all (placed : Placed table) (h : ∀ entry ∈ assignments, Readable language entry) :
    exec (assignments.forM (assign language)) placed =
      (.ok ⟨⟩, {placed with fields := given language assignments placed.fields}) := by
  induction assignments generalizing placed with
  | nil => rfl
  | cons entry rest ih =>
    obtain ⟨⟨value, hvalue⟩, hrest⟩ := List.forall_mem_cons.mp h
    rw [exec_forM_cons, exec_assign placed hvalue]
    exact ih _ hrest

/-- The first assignment that is refused leaves those before it written. -/
theorem exec_assign_refused (placed : Placed table)
    (h : ∀ entry ∈ earlier, Readable language entry) (hrefused : entry.read language = .error refusal) :
    exec ((earlier ++ entry :: later).forM (assign language)) placed =
      (.error refusal, {placed with fields := given language earlier placed.fields}) := by
  induction earlier generalizing placed with
  | nil =>
    rw [List.nil_append, exec_forM_cons]
    unfold assign
    rw [hrefused]
    rfl
  | cons first rest ih =>
    obtain ⟨⟨value, hvalue⟩, hrest⟩ := List.forall_mem_cons.mp h
    rw [List.cons_append, exec_forM_cons, exec_assign placed hvalue]
    exact ih _ hrest

theorem not_readable (h : ¬ Readable language entry) : ∃ refusal, entry.read language = .error refusal := by
  cases hread : entry.read language with
  | error refusal => exact ⟨refusal, rfl⟩
  | ok value => exact absurd ⟨value, hread⟩ h

/-- Some assignment is the first that is refused, where not all are read. -/
theorem first_refused (h : ¬ ∀ entry ∈ assignments, Readable language entry) :
    ∃ earlier entry later, assignments = earlier ++ entry :: later ∧
      (∀ other ∈ earlier, Readable language other) ∧ ¬ Readable language entry := by
  induction assignments with
  | nil => exact absurd (fun entry hentry => absurd hentry List.not_mem_nil) h
  | cons first rest ih =>
    by_cases hfirst : Readable language first
    · have hrest : ¬ ∀ entry ∈ rest, Readable language entry :=
        fun hall => h (List.forall_mem_cons.mpr ⟨hfirst, hall⟩)
      obtain ⟨earlier, entry, later, rfl, hearlier, hentry⟩ := ih hrest
      exact ⟨first :: earlier, entry, later, rfl, List.forall_mem_cons.mpr ⟨hfirst, hearlier⟩, hentry⟩
    · exact ⟨[], first, rest, rfl, fun other hother => absurd hother List.not_mem_nil, hfirst⟩

/-- A text that does not read as a position writes nothing. -/
theorem takePosition_of_error (placed : Placed table) (h : positionAssignments table position = .error refusal) :
    exec (takePosition language position) placed = (.error refusal, placed) := by
  unfold takePosition
  rw [h]
  rfl

/-- A position whose values are all read is taken. -/
theorem takePosition_of_readable (placed : Placed table) (h : positionAssignments table position = .ok assignments)
    (hreadable : ∀ entry ∈ assignments, Readable language entry) :
    ∃ after, exec (takePosition language position) placed = (.ok ⟨⟩, after) := by
  unfold takePosition
  rw [h]
  dsimp only
  rw [exec_bind_ok (exec_assign_all placed hreadable)]
  split
  · exact ⟨_, rfl⟩
  · exact ⟨_, rfl⟩

theorem takePosition_of_refused (placed : Placed table)
    (h : positionAssignments table position = .ok (earlier ++ entry :: later))
    (hearlier : ∀ other ∈ earlier, Readable language other) (hrefused : entry.read language = .error refusal) :
    exec (takePosition language position) placed =
      (.error refusal, {placed with fields := given language earlier placed.fields}) := by
  unfold takePosition
  rw [h]
  dsimp only
  rw [exec_bind, exec_assign_refused placed hearlier hrefused]

/-- A refused position that gave a field another value is seen. -/
theorem takePosition_changes (placed : Placed table)
    (h : positionAssignments table position = .ok (earlier ++ entry :: later))
    (hearlier : ∀ other ∈ earlier, Readable language other) (hrefused : entry.read language = .error refusal)
    (hnot : ¬ Restates language earlier placed.fields) :
    ∃ refusal after, exec (takePosition language position) placed = (.error refusal, after) ∧
      after ≠ placed :=
  ⟨_, _, takePosition_of_refused placed h hearlier hrefused,
    fun hsame => hnot ((given_eq_iff placed.fields hearlier).mp (congrArg Placed.fields hsame))⟩

/-- **When a refused position leaves the record.** A position that is refused leaves the fields, the
selection and the place of a record exactly where the values before the refused one restate its
fields. -/
theorem takePosition_whole (language : Int32) (position : Bytes) (placed : Placed table) :
    (∀ refusal after, exec (takePosition language position) placed = (.error refusal, after) → after = placed) ↔
      ∀ earlier entry later, positionAssignments table position = .ok (earlier ++ entry :: later) →
        (∀ other ∈ earlier, Readable language other) → ¬ Readable language entry →
          Restates language earlier placed.fields := by
  constructor
  · intro hwhole earlier entry later hread hearlier hentry
    obtain ⟨refusal, hrefused⟩ := not_readable hentry
    have hsame := hwhole refusal _ (takePosition_of_refused placed hread hearlier hrefused)
    exact (given_eq_iff placed.fields hearlier).mp (congrArg Placed.fields hsame)
  · intro hrestates refusal after hrun
    cases hread : positionAssignments table position with
    | error refused =>
      rw [takePosition_of_error placed hread] at hrun
      exact (congrArg Prod.snd hrun).symm
    | ok assignments =>
      by_cases hall : ∀ entry ∈ assignments, Readable language entry
      · obtain ⟨taken, htaken⟩ := takePosition_of_readable placed hread hall
        rw [htaken] at hrun
        cases hrun
      · obtain ⟨earlier, entry, later, rfl, hearlier, hentry⟩ := first_refused hall
        obtain ⟨refused, hrefused⟩ := not_readable hentry
        have hfields := (given_eq_iff placed.fields hearlier).mpr
            (hrestates earlier entry later hread hearlier hentry)
        rw [takePosition_of_refused placed hread hearlier hrefused, hfields] at hrun
        exact (congrArg Prod.snd hrun).symm

/-! ### A key of two fields -/

def batchField : FieldDef := {no := 1, name := ascii "Batch", caption := ascii "Batch", type := .integer}
def lineField : FieldDef := {no := 2, name := ascii "Line", caption := ascii "Line", type := .integer}

def journal : TableDef :=
  { name := ascii "Journal"
    caption := ascii "Journal"
    fields := [batchField, lineField]
    keys := [{fields := [1, 2]}]
    sorted := by decide
    keyed := by decide
    numbered := by decide }

/-- A record of which every whole number is zero. -/
def unset : (type : FieldType) → FieldHolds type
  | .code => ⟨[], normaliseCode_nil⟩
  | .text | .tableFilter | .blob => ([] : Bytes)
  | .boolean => false
  | .integer | .option | .enum => (0 : Int32)
  | .bigInteger | .duration => (0 : Int64)
  | .decimal => Decimal.zero
  | .date => Date.undefined
  | .time => Time.undefined
  | .dateTime => DateTime.undefined
  | .dateFormula => DateFormula.empty
  | .guid | .media | .mediaSet => Guid.zero
  | .recordId => RecordId.empty

/-- The second value is no number, and the first is written. -/
theorem takePosition_writes :
    ∃ refusal after, exec (takePosition 0 (ascii "Field1=0(5),Field2=0(x)"))
        (⟨fun field => unset field.type, {}⟩ : Placed journal) = (.error refusal, after) ∧
      after ≠ ⟨fun field => unset field.type, {}⟩ := by
  have hread : positionAssignments journal (ascii "Field1=0(5),Field2=0(x)") =
      .ok ([⟨batchField, ascii "5"⟩] ++ ⟨lineField, ascii "x"⟩ :: []) := by decide +kernel
  have hfirst : Assignment.read 0 ⟨batchField, ascii "5"⟩ = .ok (5 : Int32) := by
    show (wholeValue 32 (ascii "5")).map Int32.ofInt = .ok 5
    decide +kernel
  have hrefused : Assignment.read 0 ⟨lineField, ascii "x"⟩ = .error .invalid := by
    show (wholeValue 32 (ascii "x")).map Int32.ofInt = .error .invalid
    decide +kernel
  have hearlier : ∀ other ∈ [(⟨batchField, ascii "5"⟩ : Assignment)], Readable 0 other := by
    intro other hother
    rw [List.mem_singleton.mp hother]
    exact ⟨_, hfirst⟩
  apply takePosition_changes _ hread hearlier hrefused
  intro hheld
  have hsplit : [(⟨batchField, ascii "5"⟩ : Assignment)] = [] ++ ⟨batchField, ascii "5"⟩ :: [] := by
    rw [List.nil_append]
  have hvalue := hheld [] _ [] hsplit fun other hother => absurd hother List.not_mem_nil
  rw [hfirst] at hvalue
  exact absurd (Except.ok.inj hvalue) (by decide : (5 : Int32) ≠ 0)

end Agiru.Position
