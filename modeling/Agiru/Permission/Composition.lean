import Agiru.Library.Layers
import Agiru.Permission.Sets

/-! What a composition of permission sets comes to.

The levels are ordered: nothing, indirect, direct. The level of a set is the join of its
grants and of the sets it includes, less the join of the sets it excludes, under its
excluded entries. Where no set leads back to itself this has one solution, `level`. -/
namespace Agiru.Permission
open Layers Relation

def PermissionLevel.rank : PermissionLevel → Nat
  | none => 0
  | indirect => 1
  | direct => 2

instance : LinearOrder PermissionLevel :=
  LinearOrder.lift' PermissionLevel.rank fun a b h => by cases a <;> cases b <;> first | rfl | cases h

instance : OrderBot PermissionLevel where
  bot := .none
  bot_le := by intro a; cases a <;> decide

theorem combine_eq : ∀ left right, combine left right = left ⊔ right := by
  intro left right
  cases left <;> cases right <;> decide

/-! ### The recursive definition -/

/-- The entries that grant. -/
def PermissionSetDef.granting (definition : PermissionSetDef) : List PermissionEntry :=
  definition.permissions ++ definition.extensions.flatMap (·.permissions)

/-- The sets that are added. -/
def PermissionSetDef.including (definition : PermissionSetDef) : List PermissionSetIdentity :=
  definition.included ++ definition.extensions.flatMap (·.included)

def PermissionSetDef.references (definition : PermissionSetDef) : List PermissionSetIdentity :=
  definition.including ++ definition.excluded

def PermissionSetDef.entries (definition : PermissionSetDef) : List PermissionEntry :=
  definition.granting ++ definition.excludedPermissions

section Selector
variable (selector : Selector)

def grant (entry : PermissionEntry) : PermissionLevel :=
  if Resolver.applies selector entry then Resolver.level selector entry else .none

/-- An entry that grants something, to some rows only. -/
def filters (entry : PermissionEntry) : Bool :=
  Resolver.applies selector entry && Resolver.level selector entry ≠ .none && entry.securityFiltered

/-- The level of a declaration, from those of the sets it refers to. -/
def PermissionSetDef.level (value : PermissionSetIdentity → PermissionLevel)
    (definition : PermissionSetDef) : PermissionLevel :=
  override
    (subtract (joined (grant selector) definition.granting ⊔ joined value definition.including)
      (joined value definition.excluded))
    (joined (grant selector) definition.excludedPermissions)

end Selector

section Catalog
variable (catalog : PermissionSetCatalog)

def Refers (a b : PermissionSetIdentity) : Prop :=
  ∃ definition, catalog a = some definition ∧ b ∈ definition.references

def Includes (a b : PermissionSetIdentity) : Prop :=
  ∃ definition, catalog a = some definition ∧ b ∈ definition.including

def Reached (assigned : List PermissionSetIdentity) (a : PermissionSetIdentity) : Prop :=
  ∃ b ∈ assigned, ReflTransGen (Refers catalog) b a

/-- A declaration under its own name. -/
def Declared (a : PermissionSetIdentity) : Prop :=
  ∃ definition, catalog a = some definition ∧ definition.identity = a

/-- A declaration that holds valid entries only. -/
def Sound (a : PermissionSetIdentity) : Prop :=
  a.valid = true ∧ ∃ definition, catalog a = some definition ∧ definition.identity = a ∧
    ∀ entry ∈ definition.entries, entry.refusal = none

structure Acyclic : Prop where
  finite : {a | ∃ definition, catalog a = some definition}.Finite
  no_cycle : ∀ a, ¬ TransGen (Refers catalog) a a

variable {catalog} (h : Acyclic catalog)

include h in
theorem Acyclic.wellFounded : WellFounded fun b a => Refers catalog a b :=
  wellFounded_of_acyclic (h.finite.subset fun _ ⟨_, definition, ha, _⟩ => ⟨definition, ha⟩) h.no_cycle

variable (catalog) in
def levelStep (selector : Selector) (value : PermissionSetIdentity → PermissionLevel)
    (a : PermissionSetIdentity) : PermissionLevel :=
  match catalog a with
  | none => .none
  | some definition => definition.level selector value

theorem levelStep_local (selector : Selector) :
    Local (Refers catalog) (levelStep catalog selector) := by
  intro f g a hfg
  unfold levelStep
  cases ha : catalog a with
  | none => rfl
  | some definition =>
    have hrefers : ∀ b ∈ definition.references, f b = g b := fun b hb => hfg b ⟨definition, ha, hb⟩
    have hincluding : ∀ b ∈ definition.including, f b = g b := fun b hb =>
      hrefers b (List.mem_append_left _ hb)
    have hexcluded : ∀ b ∈ definition.excluded, f b = g b := fun b hb =>
      hrefers b (List.mem_append_right _ hb)
    dsimp only [PermissionSetDef.level]
    rw [joined_congr hincluding, joined_congr hexcluded]

instance : Inhabited PermissionLevel := ⟨.none⟩

/-- The level of a set. -/
noncomputable def level (selector : Selector) : PermissionSetIdentity → PermissionLevel :=
  solve h.wellFounded (levelStep catalog selector)

theorem level_eq (selector : Selector) (a : PermissionSetIdentity) :
    level h selector a = levelStep catalog selector (level h selector) a :=
  solve_eq h.wellFounded (levelStep_local selector) a

variable (catalog) in
/-- Whether a filtered entry contributes to a set. -/
def Filtered (selector : Selector) (a : PermissionSetIdentity) : Prop :=
  ∃ b, ReflTransGen (Includes catalog) a b ∧ ∃ definition, catalog b = some definition ∧
    ∃ entry ∈ definition.granting, filters selector entry = true

theorem filtered_iff {selector : Selector} {a : PermissionSetIdentity} {definition : PermissionSetDef}
    (ha : catalog a = some definition) :
    Filtered catalog selector a ↔ (∃ entry ∈ definition.granting, filters selector entry = true) ∨
      ∃ b ∈ definition.including, Filtered catalog selector b := by
  constructor
  · rintro ⟨c, hac, other, hc, hfilters⟩
    rcases ReflTransGen.cases_head hac with rfl | ⟨b, ⟨found, hfound, hb⟩, hbc⟩
    · obtain rfl := Option.some.inj (ha.symm.trans hc)
      exact .inl hfilters
    · obtain rfl := Option.some.inj (ha.symm.trans hfound)
      exact .inr ⟨b, hb, c, hbc, other, hc, hfilters⟩
  · rintro (hfilters | ⟨b, hb, c, hbc, hc⟩)
    · exact ⟨a, .refl, definition, ha, hfilters⟩
    · exact ⟨c, .head ⟨definition, ha, hb⟩ hbc, hc⟩

/-! ### What the recursion needs -/

/-- The references, the entries and the longest path of a recursion that remembers nothing. -/
structure Need where
  references : Nat := 0
  entries : Nat := 0
  path : Nat := 0
  deriving DecidableEq, Inhabited

variable (catalog) in
def needStep (value : PermissionSetIdentity → Need) (a : PermissionSetIdentity) : Need :=
  match catalog a with
  | none => ⟨1, 0, 1⟩
  | some definition =>
    ⟨1 + definition.extensions.length + (definition.references.map fun b => (value b).references).sum,
      definition.entries.length + (definition.references.map fun b => (value b).entries).sum,
      1 + joined (fun b => (value b).path) definition.references⟩

theorem needStep_local : Local (Refers catalog) (needStep catalog) := by
  intro f g a hfg
  unfold needStep
  cases ha : catalog a with
  | none => rfl
  | some definition =>
    have hrefers : ∀ b ∈ definition.references, f b = g b := fun b hb => hfg b ⟨definition, ha, hb⟩
    dsimp only
    rw [joined_congr fun b hb => congrArg Need.path (hrefers b hb),
      List.map_congr_left fun b hb => congrArg Need.references (hrefers b hb),
      List.map_congr_left fun b hb => congrArg Need.entries (hrefers b hb)]

noncomputable def need : PermissionSetIdentity → Need := solve h.wellFounded (needStep catalog)

theorem need_eq {a : PermissionSetIdentity} {definition : PermissionSetDef}
    (ha : catalog a = some definition) :
    need h a =
      ⟨1 + definition.extensions.length + (definition.references.map fun b => (need h b).references).sum,
        definition.entries.length + (definition.references.map fun b => (need h b).entries).sum,
        1 + joined (fun b => (need h b).path) definition.references⟩ := by
  rw [need, solve_eq h.wellFounded needStep_local, needStep, ha]

/-- Limits that suffice for the assigned sets. -/
structure Fits (limits : PermissionSetLimits) (assigned : List PermissionSetIdentity) : Prop where
  sets : ∀ l : List PermissionSetIdentity, l.Nodup → (∀ a ∈ l, Reached catalog assigned a) →
    l.length ≤ limits.sets
  edges : (assigned.map fun a => (need h a).references).sum ≤ limits.edges
  entries : (assigned.map fun a => (need h a).entries).sum ≤ limits.entries
  path : ∀ a ∈ assigned, (need h a).path ≤ limits.depth

end Catalog

/-! ### Lists that say the same -/

/-- The same elements, in whatever order and how often. -/
def SameMembers {α : Type} (l l' : List α) : Prop := ∀ a, a ∈ l ↔ a ∈ l'

def SameExtension (extension extension' : PermissionSetExtensionDef) : Prop :=
  SameMembers extension.permissions extension'.permissions ∧
    SameMembers extension.included extension'.included

/-- Declarations that differ in the order and the repetitions of their lists. -/
structure SameDeclaration (definition definition' : PermissionSetDef) : Prop where
  identity : definition.identity = definition'.identity
  permissions : SameMembers definition.permissions definition'.permissions
  included : SameMembers definition.included definition'.included
  excluded : SameMembers definition.excluded definition'.excluded
  excludedPermissions : SameMembers definition.excludedPermissions definition'.excludedPermissions
  extensions : ∀ extension ∈ definition.extensions, ∃ extension' ∈ definition'.extensions,
    SameExtension extension extension'
  extensions' : ∀ extension' ∈ definition'.extensions, ∃ extension ∈ definition.extensions,
    SameExtension extension extension'

def SameCatalog (catalog catalog' : PermissionSetCatalog) : Prop :=
  ∀ a, Option.Rel SameDeclaration (catalog a) (catalog' a)

section Same
variable {definition definition' : PermissionSetDef} (h : SameDeclaration definition definition')
include h

theorem SameDeclaration.granting : SameMembers definition.granting definition'.granting := by
  intro entry
  simp only [PermissionSetDef.granting, List.mem_append, List.mem_flatMap]
  refine or_congr (h.permissions entry) ⟨?_, ?_⟩
  · rintro ⟨extension, hmem, hentry⟩
    obtain ⟨extension', hmem', hsame⟩ := h.extensions extension hmem
    exact ⟨extension', hmem', (hsame.1 entry).mp hentry⟩
  · rintro ⟨extension', hmem', hentry⟩
    obtain ⟨extension, hmem, hsame⟩ := h.extensions' extension' hmem'
    exact ⟨extension, hmem, (hsame.1 entry).mpr hentry⟩

theorem SameDeclaration.including : SameMembers definition.including definition'.including := by
  intro b
  simp only [PermissionSetDef.including, List.mem_append, List.mem_flatMap]
  refine or_congr (h.included b) ⟨?_, ?_⟩
  · rintro ⟨extension, hmem, hb⟩
    obtain ⟨extension', hmem', hsame⟩ := h.extensions extension hmem
    exact ⟨extension', hmem', (hsame.2 b).mp hb⟩
  · rintro ⟨extension', hmem', hb⟩
    obtain ⟨extension, hmem, hsame⟩ := h.extensions' extension' hmem'
    exact ⟨extension, hmem, (hsame.2 b).mpr hb⟩

theorem SameDeclaration.references : SameMembers definition.references definition'.references := by
  intro b
  simp only [PermissionSetDef.references, List.mem_append]
  exact or_congr (h.including b) (h.excluded b)

theorem SameDeclaration.level (selector : Selector) (value : PermissionSetIdentity → PermissionLevel) :
    definition.level selector value = definition'.level selector value := by
  unfold PermissionSetDef.level
  rw [joined_congr_mem h.granting, joined_congr_mem h.including, joined_congr_mem h.excluded,
    joined_congr_mem h.excludedPermissions]

end Same

section SameCatalog
variable {catalog catalog' : PermissionSetCatalog} (h : SameCatalog catalog catalog')
include h

theorem SameCatalog.symm_iff {P : PermissionSetDef → Prop} {P' : PermissionSetDef → Prop}
    (hP : ∀ definition definition', SameDeclaration definition definition' →
      (P definition ↔ P' definition')) (a : PermissionSetIdentity) :
    (∃ definition, catalog a = some definition ∧ P definition) ↔
      ∃ definition, catalog' a = some definition ∧ P' definition := by
  have hsame := h a
  rcases hc : catalog a with _ | definition <;> rcases hc' : catalog' a with _ | definition' <;>
    rw [hc, hc'] at hsame
  · simp
  · cases hsame
  · cases hsame
  · cases hsame with
    | some hsame => simpa using hP _ _ hsame

theorem SameCatalog.refers : Refers catalog = Refers catalog' := by
  funext a b
  exact propext (h.symm_iff (fun _ _ hsame => hsame.references b) a)

theorem SameCatalog.includes : Includes catalog = Includes catalog' := by
  funext a b
  exact propext (h.symm_iff (fun _ _ hsame => hsame.including b) a)

theorem SameCatalog.filtered (selector : Selector) (a : PermissionSetIdentity) :
    Filtered catalog selector a ↔ Filtered catalog' selector a := by
  unfold Filtered
  rw [h.includes]
  refine exists_congr fun b => and_congr_right fun _ => h.symm_iff (fun _ _ hsame => ?_) b
  exact exists_congr fun entry => and_congr_left fun _ => hsame.granting entry

theorem SameCatalog.levelStep (selector : Selector) :
    levelStep catalog selector = Permission.levelStep catalog' selector := by
  funext value a
  have hsame := h a
  unfold Permission.levelStep
  rcases hc : catalog a with _ | definition <;> rcases hc' : catalog' a with _ | definition' <;>
    rw [hc, hc'] at hsame
  · cases hsame
  · cases hsame
  · cases hsame with
    | some hsame => exact hsame.level selector value

end SameCatalog

end Agiru.Permission
