import Agiru.Position.Whole
import Agiru.Trigger.Calls

/-! What a call that raises leaves of the record.

Whatever runs inside them, the calls leave the stack of before-images as it was (`balanced_run`), and a
`Validate` that raises leaves the record as it was. A `Rename` puts the record back only where no row
carries the old key; its other steps leave what they wrote, so that it is whole where nothing was written
before the raise (`rename_whole`). -/
namespace Agiru.Trigger
open Bytes Position Procedure Storage

variable {table : TableDef} {platform : Platform table}
variable {world : World}
variable {α : Type} {left : World}

/-- A step that leaves the stack of before-images as it was, however it ends. -/
def Balanced {α : Type} (step : Procedure Bytes World α) : Prop :=
  ∀ images, Keeps (fun world => world.images = images) step

/-- A step that leaves the record as it was where it raises, and the before-images in any case. -/
structure Whole (step : Step) (world : World) : Prop where
  fields : ∀ error left, exec step world = (.error error, left) → left.fields = world.fields
  images : (exec step world).2.images = world.images

/-! ### The images -/

theorem exec_holding (image : Fields) (body : Step) (world : World) :
    exec (holding image body) world =
      match exec body {world with images := image :: world.images} with
      | (outcome, left) => (outcome, {left with images := left.images.tail}) := by
  have hpush : exec (pushBefore image) world = (.ok ⟨⟩, {world with images := image :: world.images}) := rfl
  unfold holding
  rw [exec_bind_ok hpush, exec_bind, exec_tryCatch]
  rcases exec body {world with images := image :: world.images} with ⟨error | ⟨⟩, left⟩
  · rfl
  · rfl

theorem exec_restoring (before : Fields) (body : Step) (world : World) :
    exec (restoring before body) world =
      match exec body world with
      | (.ok ⟨⟩, left) => (.ok ⟨⟩, left)
      | (.error error, left) => (.error error, {left with fields := before}) := by
  unfold restoring
  rw [exec_tryCatch]
  rcases exec body world with ⟨error | ⟨⟩, left⟩
  · rfl
  · rfl

namespace Balanced

theorem bind {β : Type} {first : Procedure Bytes World α} {rest : α → Procedure Bytes World β}
    (hfirst : Balanced first) (hrest : ∀ a, Balanced (rest a)) : Balanced (first >>= rest) :=
  fun images => (hfirst images).bind fun a => hrest a images

theorem pure (a : α) : Balanced (pure a : Procedure Bytes World α) := fun _ => Keeps.pure a

theorem throw (error : Bytes) : Balanced (throw error : Procedure Bytes World α) :=
  fun _ => Keeps.throw error

theorem tryCatch {body : Procedure Bytes World α} {handle : Bytes → Procedure Bytes World α}
    (hbody : Balanced body) (hhandle : ∀ error, Balanced (handle error)) : Balanced (tryCatch body handle) :=
  fun images => (hbody images).tryCatch fun error => hhandle error images

theorem fieldsNow : Balanced fieldsNow := fun _ => Keeps.bind Keeps.get fun world => Keeps.pure world.fields

theorem restore (fields : Fields) : Balanced (restore fields) := fun _ => Keeps.modify fun _ h => h

theorem put (field : FieldDef) (value : FieldHolds field.type) : Balanced (put field value) :=
  fun _ => Keeps.modify fun _ h => h

theorem captureImage : Balanced captureImage := fun _ => Keeps.modify fun _ h => h

theorem restoring (before : Fields) {body : Step} (h : Balanced body) : Balanced (restoring before body) :=
  h.tryCatch fun error => (Balanced.restore before).bind fun _ => Balanced.throw error

/-- What was pushed is popped. -/
theorem holding (image : Fields) {body : Step} (h : Balanced body) : Balanced (holding image body) := by
  intro images world himages
  have hbody := h (image :: images) {world with images := image :: world.images} (congrArg (image :: ·) himages)
  rw [exec_holding]
  exact congrArg List.tail hbody

theorem setText (field : FieldDef) (text : Bytes) : Balanced (setText platform field text) := by
  unfold Trigger.setText
  split
  · exact put field _
  · exact throw _

theorem assignField (field : FieldDef) (value : Except Bytes (FieldHolds field.type)) :
    Balanced (assignField field value) := by
  cases value with
  | ok value => exact put field value
  | error refusal => exact throw refusal

theorem evaluateInto (no : FieldNo) (text : Bytes) : Balanced (evaluateInto platform no text) := by
  unfold Trigger.evaluateInto
  split
  · exact throw _
  · exact assignField _ _

theorem assignKey (position : Nat) (value : KeyValue) : Balanced (assignKey platform position value) := by
  unfold Trigger.assignKey
  split
  · exact throw _
  · cases value with
    | text text => exact setText _ text
    | whole n =>
      dsimp only
      split
      · exact setText _ _
      · exact throw _
    | typed type value =>
      dsimp only
      split
      · exact put _ _
      · exact throw _

theorem assignKeyText (position : Nat) (text : Bytes) : Balanced (assignKeyText platform position text) := by
  unfold Trigger.assignKeyText
  split
  · exact throw _
  · exact setText _ text

theorem forM {β : Type} {f : β → Step} (h : ∀ x, Balanced (f x)) (xs : List β) : Balanced (xs.forM f) :=
  fun images _ hworld => exec_forM_keeps (fun x _ world => h x images world) hworld

end Balanced

/-- Hooks that leave the before-images. -/
structure ValidateHooks.Balanced (hooks : ValidateHooks) : Prop where
  checkRelation : Trigger.Balanced hooks.checkRelation
  onBeforeValidate : Trigger.Balanced hooks.onBeforeValidate
  onValidate : Trigger.Balanced hooks.onValidate
  onAfterValidate : Trigger.Balanced hooks.onAfterValidate

structure RenameHooks.Balanced (hooks : RenameHooks) : Prop where
  permission : Trigger.Balanced hooks.permission
  onBeforeRename : Trigger.Balanced hooks.onBeforeRename
  onRename : Trigger.Balanced hooks.onRename
  onAfterRename : Trigger.Balanced hooks.onAfterRename

theorem ValidateHooks.Balanced.run {hooks : ValidateHooks} (h : hooks.Balanced) : Trigger.Balanced hooks.run :=
  h.checkRelation.bind fun _ => h.onBeforeValidate.bind fun _ => h.onValidate.bind fun _ => h.onAfterValidate

theorem balanced_runtimeRename (hooks : RenameHooks) (before : Fields) : Balanced
    (runtimeRename hooks before) := by
  apply Balanced.fieldsNow.bind
  intro fields
  apply (Balanced.restore _).bind
  intro _
  cases (hooks.row fields before).2 with
  | ok found => exact Balanced.pure found
  | error refusal => exact Balanced.throw refusal

theorem balanced_renameRow (hooks : RenameHooks) (before : Fields) : Balanced
    (renameRow platform hooks before) := by
  apply (balanced_runtimeRename hooks before).bind
  intro found
  cases found with
  | true => exact Balanced.pure _
  | false => exact (Balanced.restore before).bind fun _ => Balanced.throw _

theorem balanced_renameFrom {hooks : RenameHooks} (h : hooks.Balanced) (before : Fields) :
    Balanced (renameFrom platform hooks before) :=
  h.permission.bind fun _ => h.onBeforeRename.bind fun _ => (h.onRename.holding before).bind fun _ =>
    (balanced_renameRow hooks before).bind fun _ => h.onAfterRename.bind fun _ => Balanced.captureImage

theorem balanced_rename {hooks : RenameHooks} (h : hooks.Balanced) (keys : List KeyValue) :
    Balanced (rename platform keys hooks) := by
  have hkeys : Balanced (keys.zipIdx.forM fun key => assignKey platform key.2 key.1) :=
    Balanced.forM (fun key : KeyValue × Nat => Balanced.assignKey key.2 key.1) _
  exact Balanced.fieldsNow.bind fun before => hkeys.bind fun _ => balanced_renameFrom h before

theorem balanced_renameKeys {hooks : RenameHooks} (h : hooks.Balanced) (installed : Bool) (keys : List Bytes) :
    Balanced (renameKeys platform installed keys hooks) := by
  unfold renameKeys
  split
  · exact Balanced.throw _
  · split
    · exact Balanced.throw _
    · have hkeys : Balanced (keys.zipIdx.forM fun key => assignKeyText platform key.2 key.1) :=
        Balanced.forM (fun key : Bytes × Nat => Balanced.assignKeyText key.2 key.1) _
      exact Balanced.fieldsNow.bind fun before => hkeys.bind fun _ => balanced_renameFrom h before

theorem balanced_validate {hooks : ValidateHooks} (h : hooks.Balanced) (field : FieldDef)
    (value : Except Bytes (FieldHolds field.type)) : Balanced (validate field value hooks) :=
  Balanced.fieldsNow.bind fun before =>
    ((Balanced.assignField field value).bind fun _ => h.run.restoring before).holding before

theorem balanced_validateText {hooks : ValidateHooks} (h : hooks.Balanced) (no : FieldNo) (text : Bytes) :
    Balanced (validateText platform no text hooks) :=
  Balanced.fieldsNow.bind fun before =>
    (((Balanced.evaluateInto no text).bind fun _ => h.run).restoring before).holding before

theorem balanced_attempt {call : Step} (h : Balanced call) : Balanced (attempt call) :=
  (h.bind fun _ => Balanced.pure none).tryCatch fun error => Balanced.pure (some error)

/-- Whatever a behaviour calls, the before-images are those it began with. -/
theorem balanced_run (behaviour : Behaviour) : Balanced (behaviour.run platform) := by
  induction behaviour with
  | finish => exact Balanced.pure _
  | raise error => exact Balanced.throw error
  | look next ih => exact fun images => Keeps.get.bind fun world => ih world.fields world.before images
  | change fields next ih => exact (Balanced.restore fields).bind fun _ => ih
  | validate field value checkRelation onBefore onValidate onAfter next hrelation hbefore hvalidate hafter ih =>
    exact (balanced_attempt (balanced_validate ⟨hrelation, hbefore, hvalidate, hafter⟩ field value)).bind ih
  | validateText no text checkRelation onBefore onValidate onAfter next hrelation hbefore hvalidate hafter ih =>
    exact (balanced_attempt (balanced_validateText ⟨hrelation, hbefore, hvalidate, hafter⟩ no text)).bind ih
  | validateAgain checkRelation onValidate next hrelation hvalidate ih =>
    exact (balanced_attempt (Balanced.fieldsNow.bind fun before =>
      (hrelation.bind fun _ => hvalidate).holding before)).bind ih
  | rename keys permission onBefore onRename row onAfter next hpermission hbefore hrename hafter ih =>
    exact (balanced_attempt (balanced_rename ⟨hpermission, hbefore, hrename, hafter⟩ keys)).bind ih
  | renameKeys installed keys permission onBefore onRename row onAfter next hpermission hbefore hrename hafter
      ih =>
    exact (balanced_attempt (balanced_renameKeys ⟨hpermission, hbefore, hrename, hafter⟩ installed keys)).bind ih

/-! ### Validate -/

theorem whole_of_balanced {step : Step} (h : Balanced step)
    (hfields : ∀ error left, exec step world = (.error error, left) → left.fields = world.fields) :
    Whole step world :=
  ⟨hfields, h world.images world rfl⟩

theorem exec_fieldsNow_bind (rest : Fields → Procedure Bytes World α) (world : World) :
    exec (fieldsNow >>= rest) world = exec (rest world.fields) world := rfl

/-- A body that is held and put back where it raises leaves the record. -/
theorem fields_of_holding {before : Fields} {body : Step} {error : Bytes}
    (h : ∀ world left error, world.fields = before → exec body world = (.error error, left) → left.fields = before)
    (hworld : world.fields = before) (hrun : exec (holding before body) world = (.error error, left)) :
    left.fields = before := by
  rw [exec_holding] at hrun
  rcases hbody : exec body {world with images := before :: world.images} with ⟨outcome, reached⟩
  rw [hbody] at hrun
  cases hrun
  exact h {world with images := before :: world.images} reached error hworld hbody

theorem fields_of_restoring {before : Fields} {body : Step} {error : Bytes}
    (hrun : exec (restoring before body) world = (.error error, left)) : left.fields = before := by
  rw [exec_restoring] at hrun
  rcases hbody : exec body world with ⟨refusal | ⟨⟩, reached⟩ <;> rw [hbody] at hrun
  · cases hrun
    rfl
  · cases hrun

theorem validate_whole {hooks : ValidateHooks} (h : hooks.Balanced) (field : FieldDef)
    (value : Except Bytes (FieldHolds field.type)) (world : World) : Whole (validate field value hooks) world := by
  apply whole_of_balanced (balanced_validate h field value)
  intro error left hrun
  unfold validate at hrun
  rw [exec_fieldsNow_bind] at hrun
  apply fields_of_holding _ rfl hrun
  intro reached left error hreached hbody
  cases value with
  | error refusal =>
    cases hbody
    exact hreached
  | ok value => exact fields_of_restoring hbody

theorem validateText_whole {hooks : ValidateHooks} (h : hooks.Balanced) (no : FieldNo) (text : Bytes)
    (world : World) : Whole (validateText platform no text hooks) world := by
  apply whole_of_balanced (balanced_validateText h no text)
  intro error left hrun
  unfold validateText at hrun
  rw [exec_fieldsNow_bind] at hrun
  apply fields_of_holding _ rfl hrun
  intro reached left error _ hbody
  exact fields_of_restoring hbody

/-! ### Rename -/

/-- What a rename does, one after another. -/
inductive RenameStep
  | key (position : Nat) (value : KeyValue)
  | keyText (position : Nat) (text : Bytes)
  | permission
  | onBeforeRename
  | onRename
  | row
  | onAfterRename

/-- A step of a rename of the record as it was; the row operation's step puts the record back where no row
carries the old key. -/
def RenameStep.run (platform : Platform table) (hooks : RenameHooks) (before : Fields) : RenameStep → Step
  | key position value => assignKey platform position value
  | keyText position text => assignKeyText platform position text
  | permission => hooks.permission
  | onBeforeRename => hooks.onBeforeRename
  | onRename => holding before hooks.onRename
  | row => renameRow platform hooks before
  | onAfterRename => do
    hooks.onAfterRename
    captureImage

/-- What of a step nothing is put back after: of the row operation's, what it raises itself. -/
def RenameStep.body (platform : Platform table) (hooks : RenameHooks) (before : Fields) (step : RenameStep) :
    Step :=
  match step with
  | row => do let _ ← runtimeRename hooks before
  | step => step.run platform hooks before

/-- The steps after the new key is written. -/
def stepsFrom : List RenameStep := [.permission, .onBeforeRename, .onRename, .row, .onAfterRename]

def keySteps (keys : List KeyValue) : List RenameStep := keys.zipIdx.map fun key => .key key.2 key.1

def keyTextSteps (keys : List Bytes) : List RenameStep := keys.zipIdx.map fun key => .keyText key.2 key.1

/-- A step leaves the fields that it finds, however it ends. Of a key's assignment: the value is the field's
own, or it is refused. -/
def Leaves (step : Step) (world : World) : Prop := (exec step world).2.fields = world.fields

section
variable (platform : Platform table) (hooks : RenameHooks) (before : Fields)

/-- One of the steps raises, and not for want of a row. -/
def Raises : List RenameStep → World → Prop
  | [], _ => False
  | step :: rest, world =>
    (∃ error left, exec (step.body platform hooks before) world = (.error error, left)) ∨
      ∃ reached, exec (step.run platform hooks before) world = (.ok ⟨⟩, reached) ∧ Raises rest reached

/-- The steps up to the first that raises leave the fields that they find. -/
def LeaveAll : List RenameStep → World → Prop
  | [], _ => True
  | step :: rest, world =>
    Leaves (step.body platform hooks before) world ∧
      ∀ reached, exec (step.run platform hooks before) world = (.ok ⟨⟩, reached) → LeaveAll rest reached

end

/-- Nothing is written before one of the steps raises. -/
def RaisesUnwritten (platform : Platform table) (hooks : RenameHooks) (steps : List RenameStep)
    (world : World) : Prop :=
  Raises platform hooks world.fields steps world → LeaveAll platform hooks world.fields steps world

theorem exec_renameFrom (hooks : RenameHooks) (before : Fields) (world : World) :
    exec (renameFrom platform hooks before) world =
      exec (stepsFrom.forM (RenameStep.run platform hooks before)) world := by
  have hlast : ∀ world, exec (do
      hooks.onAfterRename
      captureImage) world = exec ([RenameStep.onAfterRename].forM (RenameStep.run platform hooks before))
          world := by
    intro world
    rw [exec_forM_cons]
    show exec (RenameStep.run platform hooks before .onAfterRename) world = _
    rcases exec (RenameStep.run platform hooks before .onAfterRename) world with ⟨error | ⟨⟩, left⟩
    · rfl
    · rfl
  have hstep : ∀ (step : RenameStep) (rest : List RenameStep) (others : Step),
      (∀ world, exec others world = exec (rest.forM (RenameStep.run platform hooks before)) world) →
      ∀ world, exec (step.run platform hooks before >>= fun _ => others) world =
        exec ((step :: rest).forM (RenameStep.run platform hooks before)) world := by
    intro step rest others hothers world
    rw [exec_forM_cons, exec_bind]
    rcases exec (step.run platform hooks before) world with ⟨error | ⟨⟩, left⟩
    · rfl
    · exact hothers left
  exact hstep .permission _ _ (hstep .onBeforeRename _ _ (hstep .onRename _ _ (hstep .row _ _ hlast))) world

theorem exec_rename (hooks : RenameHooks) (keys : List KeyValue) (world : World) :
    exec (rename platform keys hooks) world =
      exec ((keySteps keys ++ stepsFrom).forM (RenameStep.run platform hooks world.fields)) world := by
  unfold rename keySteps
  rw [exec_fieldsNow_bind, exec_forM_append, exec_bind, exec_bind, exec_forM_map]
  dsimp only [RenameStep.run]
  rcases exec (keys.zipIdx.forM fun key => assignKey platform key.2 key.1) world with ⟨error | ⟨⟩, left⟩
  · rfl
  · exact exec_renameFrom hooks world.fields left

/-- A step's own raise is its body's, but for the record put back. -/
theorem exec_step_error {hooks : RenameHooks} {before : Fields} {step : RenameStep} {error : Bytes}
    (h : exec (step.run platform hooks before) world = (.error error, left)) :
    exec (step.body platform hooks before) world = (.error error, left) ∨ left.fields = before := by
  cases step with
  | row =>
    unfold RenameStep.run renameRow at h
    rw [exec_bind] at h
    rcases hrow : exec (runtimeRename hooks before) world with ⟨refusal | found, reached⟩ <;> rw [hrow] at h
    · left
      unfold RenameStep.body
      rw [exec_bind, hrow]
      exact h
    · cases found with
      | true => cases h
      | false =>
        cases h
        exact .inr rfl
  | key position value | keyText position text | permission | onBeforeRename | onRename | onAfterRename =>
    exact .inl h

/-- A step that does not raise ends as its body does. -/
theorem exec_body_of_step {hooks : RenameHooks} {before : Fields} {step : RenameStep} {reached : World}
    (h : exec (step.run platform hooks before) world = (.ok ⟨⟩, reached)) :
    exec (step.body platform hooks before) world = (.ok ⟨⟩, reached) := by
  cases step with
  | row =>
    unfold RenameStep.run renameRow at h
    rw [exec_bind] at h
    unfold RenameStep.body
    rw [exec_bind]
    rcases hrow : exec (runtimeRename hooks before) world with ⟨refusal | found, left⟩ <;> rw [hrow] at h
    · cases h
    · cases found with
      | true => exact h
      | false => cases h
  | key position value | keyText position text | permission | onBeforeRename | onRename | onAfterRename => exact h

/-- Steps of which nothing is written before one raises leave the record. The induction is on the steps:
those before the raise lead from the record's fields to the same fields. -/
theorem fields_of_unwritten {hooks : RenameHooks} {before : Fields} {steps : List RenameStep} {error : Bytes}
    (h : Raises platform hooks before steps world →
      world.fields = before ∧ LeaveAll platform hooks before steps world)
    (hrun : exec (steps.forM (RenameStep.run platform hooks before)) world = (.error error, left)) :
    left.fields = before := by
  induction steps generalizing world with
  | nil => cases hrun
  | cons step rest ih =>
    rw [exec_forM_cons] at hrun
    rcases hstep : exec (step.run platform hooks before) world with ⟨refusal | ⟨⟩, reached⟩ <;> rw [hstep] at hrun
    · cases hrun
      rcases exec_step_error hstep with hbody | hrestored
      · obtain ⟨hfields, hleaves, -⟩ := h (.inl ⟨_, _, hbody⟩)
        rw [Leaves, hbody] at hleaves
        exact hleaves.trans hfields
      · exact hrestored
    · apply ih _ hrun
      intro hraises
      obtain ⟨hfields, hleaves, hrest⟩ := h (.inr ⟨reached, hstep, hraises⟩)
      rw [Leaves, exec_body_of_step hstep] at hleaves
      exact ⟨hleaves.trans hfields, hrest reached hstep⟩

theorem rename_whole {hooks : RenameHooks} (h : hooks.Balanced) {keys : List KeyValue}
    (hunwritten : RaisesUnwritten platform hooks (keySteps keys ++ stepsFrom) world) :
    Whole (rename platform keys hooks) world := by
  apply whole_of_balanced (balanced_rename h keys)
  intro error left hrun
  rw [exec_rename] at hrun
  exact fields_of_unwritten (fun hraises => ⟨rfl, hunwritten hraises⟩) hrun

/-- A rename through a reference that is not begun raises before it writes. -/
def Begun (table : TableDef) (installed : Bool) (keys : List Bytes) : Prop :=
  (table.keys ≠ [] ∧ keys.length = table.primaryKey.length) ∧ installed = true

theorem exec_renameKeys (hooks : RenameHooks) {installed : Bool} {keys : List Bytes}
    (h : Begun table installed keys)
    (world : World) :
    exec (renameKeys platform installed keys hooks) world =
      exec ((keyTextSteps keys ++ stepsFrom).forM (RenameStep.run platform hooks world.fields)) world := by
  have hcount : ¬ (table.keys = [] ∨ keys.length ≠ table.primaryKey.length) := by
    rw [not_or, not_not]
    exact h.1
  have hinstalled : ¬ (!installed) = true := by
    rw [h.2]
    exact Bool.false_ne_true
  unfold renameKeys keyTextSteps
  rw [if_neg hcount, if_neg hinstalled, exec_fieldsNow_bind, exec_forM_append, exec_bind, exec_bind, exec_forM_map]
  dsimp only [RenameStep.run]
  rcases exec (keys.zipIdx.forM fun key => assignKeyText platform key.2 key.1) world with ⟨error | ⟨⟩, left⟩
  · rfl
  · exact exec_renameFrom hooks world.fields left

theorem renameKeys_whole {hooks : RenameHooks} (h : hooks.Balanced) {installed : Bool} {keys : List Bytes}
    (hunwritten : Begun table installed keys →
      RaisesUnwritten platform hooks (keyTextSteps keys ++ stepsFrom) world) :
    Whole (renameKeys platform installed keys hooks) world := by
  apply whole_of_balanced (balanced_renameKeys h installed keys)
  intro error left hrun
  by_cases hbegun : Begun table installed keys
  · rw [exec_renameKeys hooks hbegun] at hrun
    exact fields_of_unwritten (fun hraises => ⟨rfl, hunwritten hbegun hraises⟩) hrun
  · unfold renameKeys at hrun
    split at hrun
    · cases hrun
      rfl
    · next hcount =>
      split at hrun
      · cases hrun
        rfl
      · next hinstalled =>
        rw [not_or, not_not] at hcount
        exact absurd ⟨hcount, by simpa using hinstalled⟩ hbegun

/-! ### The calls of a program -/

/-- What a validation's check, subscribers and trigger do. -/
structure ValidateBehaviours where
  checkRelation : Behaviour
  onBeforeValidate : Behaviour
  onValidate : Behaviour
  onAfterValidate : Behaviour

def ValidateBehaviours.hooks (platform : Platform table) (behaviours : ValidateBehaviours) : ValidateHooks :=
  ⟨behaviours.checkRelation.run platform, behaviours.onBeforeValidate.run platform,
    behaviours.onValidate.run platform, behaviours.onAfterValidate.run platform⟩

/-- What a rename's check, subscribers, trigger and row operation do. -/
structure RenameBehaviours where
  permission : Behaviour
  onBeforeRename : Behaviour
  onRename : Behaviour
  row : Fields → Fields → Fields × Except Bytes Bool
  onAfterRename : Behaviour

def RenameBehaviours.hooks (platform : Platform table) (behaviours : RenameBehaviours) : RenameHooks :=
  ⟨behaviours.permission.run platform, behaviours.onBeforeRename.run platform, behaviours.onRename.run platform,
    behaviours.row, behaviours.onAfterRename.run platform⟩

theorem ValidateBehaviours.balanced (behaviours : ValidateBehaviours) : (behaviours.hooks platform).Balanced :=
  ⟨balanced_run _, balanced_run _, balanced_run _, balanced_run _⟩

theorem RenameBehaviours.balanced (behaviours : RenameBehaviours) : (behaviours.hooks platform).Balanced :=
  ⟨balanced_run _, balanced_run _, balanced_run _, balanced_run _⟩

/-- **What a call that raises leaves.** Every call leaves the before-images, and a `Validate` that raises the
record. A `Rename` that raises leaves the record where nothing was written before the raise. -/
theorem calls_whole (platform : Platform table) (world : World) :
    (∀ behaviours : ValidateBehaviours,
        (∀ (field : FieldDef) (value : Except Bytes (FieldHolds field.type)),
          Whole (validate field value (behaviours.hooks platform)) world) ∧
        ∀ no text, Whole (validateText platform no text (behaviours.hooks platform)) world) ∧
      ∀ behaviours : RenameBehaviours,
        (∀ keys, (exec (rename platform keys (behaviours.hooks platform)) world).2.images = world.images ∧
          (RaisesUnwritten platform (behaviours.hooks platform) (keySteps keys ++ stepsFrom) world →
            Whole (rename platform keys (behaviours.hooks platform)) world)) ∧
        ∀ installed keys,
          (exec (renameKeys platform installed keys (behaviours.hooks platform)) world).2.images = world.images ∧
          ((Begun table installed keys →
              RaisesUnwritten platform (behaviours.hooks platform) (keyTextSteps keys ++ stepsFrom) world) →
            Whole (renameKeys platform installed keys (behaviours.hooks platform)) world) := by
  constructor
  · intro behaviours
    constructor
    · intro field value
      exact validate_whole behaviours.balanced field value world
    · intro no text
      exact validateText_whole behaviours.balanced no text world
  · intro behaviours
    constructor
    · intro keys
      exact ⟨balanced_rename behaviours.balanced keys world.images world rfl, rename_whole behaviours.balanced⟩
    · intro installed keys
      exact ⟨balanced_renameKeys behaviours.balanced installed keys world.images world rfl,
        renameKeys_whole behaviours.balanced⟩

/-! ### A trigger that refuses -/

/-- A record of zeros that no trigger runs on. -/
def untouched : World := ⟨fun field => unset field.type, [], fun field => unset field.type⟩

def plainly : Platform journal := ⟨0, fun _ value => .ok value, fun _ _ => []⟩

/-- `OnRename` raises, and nothing else does anything. -/
def refusing : RenameBehaviours :=
  ⟨.finish, .finish, .raise (ascii "Not this one."), fun fields _ => (fields, .ok true), .finish⟩

def batchOf (fields : Fields) : Int32 := fields batchField

/-- The new key stays in the record. -/
theorem rename_leaves_key : ¬ Whole (rename plainly [.whole 5, .whole 6] (refusing.hooks plainly)) untouched := by
  intro hwhole
  have hraised : (exec (rename plainly [.whole 5, .whole 6] (refusing.hooks plainly)) untouched).1 =
      .error (ascii "Not this one.") := by decide +kernel
  have hkey : batchOf (exec (rename plainly [.whole 5, .whole 6] (refusing.hooks plainly)) untouched).2.fields =
      5 := by
    decide +kernel
  rcases hrun : exec (rename plainly [.whole 5, .whole 6] (refusing.hooks plainly)) untouched with ⟨outcome, left⟩
  rw [hrun] at hraised hkey
  dsimp only at hraised
  rw [hraised] at hrun
  rw [hwhole.fields _ _ hrun] at hkey
  exact absurd hkey (by decide)

end Agiru.Trigger
