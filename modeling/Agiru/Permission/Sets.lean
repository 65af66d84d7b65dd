import Agiru.Library.Bytes
import Agiru.Library.Procedure

/-! Resolution of composed permission sets.

A set has entries of its own, adds the sets it includes and what its extensions bring, and
takes away the sets and the entries it excludes. `Resolver.set` expands a set once and
remembers what it came to; it refuses a set that is still being expanded, a declaration
that is not there, and work beyond the limits. -/
namespace Agiru.Permission
open Bytes

/-- A value of a scoped enumeration, which may hold an ordinal that has no name. -/
inductive Enumerated (α : Type)
  | named (a : α)
  | unnamed (ordinal : UInt8)
  deriving DecidableEq

def Enumerated.valid {α : Type} : Enumerated α → Bool
  | named _ => true
  | unnamed _ => false

inductive PermissionScope
  | system
  | tenant
  deriving DecidableEq

inductive PermissionObject
  | tableData
  | table
  | report
  | codeunit
  | xmlPort
  | menuSuite
  | page
  | query
  | system
  deriving DecidableEq

inductive PermissionOperation
  | read
  | insert
  | modify
  | delete
  | execute
  deriving DecidableEq

inductive PermissionLevel
  | none
  | direct
  | indirect
  deriving DecidableEq

structure PermissionSetIdentity where
  app : Bytes
  role : Bytes
  scope : Enumerated PermissionScope := .named .system
  deriving DecidableEq

/-- A level for each operation. -/
structure Rights where
  read : Enumerated PermissionLevel := .named .none
  insert : Enumerated PermissionLevel := .named .none
  modify : Enumerated PermissionLevel := .named .none
  delete : Enumerated PermissionLevel := .named .none
  execute : Enumerated PermissionLevel := .named .none
  deriving DecidableEq

def Rights.toList (rights : Rights) : List (Enumerated PermissionLevel) :=
  [rights.read, rights.insert, rights.modify, rights.delete, rights.execute]

def Rights.of (rights : Rights) : PermissionOperation → Enumerated PermissionLevel
  | .read => rights.read
  | .insert => rights.insert
  | .modify => rights.modify
  | .delete => rights.delete
  | .execute => rights.execute

structure PermissionEntry where
  rights : Rights := {}
  /-- Zero is every object. -/
  object : Int := 0
  kind : Enumerated PermissionObject := .named .tableData
  securityFiltered : Bool := false
  deriving DecidableEq

structure PermissionSetExtensionDef where
  permissions : List PermissionEntry := []
  included : List PermissionSetIdentity := []
  deriving DecidableEq

structure PermissionSetDef where
  identity : PermissionSetIdentity
  permissions : List PermissionEntry := []
  included : List PermissionSetIdentity := []
  excluded : List PermissionSetIdentity := []
  excludedPermissions : List PermissionEntry := []
  extensions : List PermissionSetExtensionDef := []
  deriving DecidableEq

structure PermissionSetLimits where
  sets : Nat := 512
  depth : Nat := 64
  edges : Nat := 4096
  entries : Nat := 65536

/-- `PermissionSetCatalog::Find`. -/
abbrev PermissionSetCatalog := PermissionSetIdentity → Option PermissionSetDef

inductive Refusal
  | selector
  | entries
  | object
  | level
  | edges
  | identity
  | path
  | cycle
  | sets
  | declaration
  | filtered
  deriving DecidableEq

def Refusal.code : Refusal → Bytes
  | filtered => ascii "PermissionFilterUnsupported"
  | _ => ascii "PermissionPolicy"

def Refusal.text : Refusal → Bytes
  | selector => ascii "invalid permission selector or resource bound"
  | entries => ascii "permission entry bound exceeded"
  | object => ascii "invalid permission object"
  | level => ascii "invalid permission level"
  | edges => ascii "permission reference bound exceeded"
  | identity => ascii "invalid permission-set identity"
  | path => ascii "permission path bound exceeded"
  | cycle => ascii "cyclic permission-set composition"
  | sets => ascii "permission set bound exceeded"
  | declaration => ascii "missing or mismatched permission-set declaration"
  | filtered => ascii "security-filtered permissions require row predicate enforcement"

/-! ### Levels -/

def combine (left right : PermissionLevel) : PermissionLevel :=
  if left = .direct ∨ right = .direct then .direct
  else if left = .indirect ∨ right = .indirect then .indirect
  else .none

def subtract (included excluded : PermissionLevel) : PermissionLevel :=
  if excluded = .direct ∨ included = excluded then .none else included

/-- What excluded entries leave of a level. -/
def override (level excluded : PermissionLevel) : PermissionLevel :=
  if excluded = .direct then .none
  else if excluded = .indirect ∧ level = .direct then .indirect
  else level

structure Effective where
  level : PermissionLevel := .none
  filtered : Bool := false
  deriving DecidableEq

/-- `Include`. -/
def Effective.include (target source : Effective) : Effective :=
  ⟨combine target.level source.level, target.filtered || source.filtered⟩

/-! ### The resolver -/

/-- What a resolution asks for. -/
structure Selector where
  object : Int
  kind : PermissionObject
  operation : PermissionOperation
  limits : PermissionSetLimits

/-- The last set of the active path is the first of `active`. -/
structure Resolver where
  completed : List (PermissionSetIdentity × Effective) := []
  active : List PermissionSetIdentity := []
  sets : Nat := 0
  edges : Nat := 0
  entries : Nat := 0

/-- Why an entry is not a valid one, if it is not. -/
def PermissionEntry.refusal (entry : PermissionEntry) : Option Refusal :=
  if entry.object < 0 ∨ !entry.kind.valid then some .object
  else if entry.rights.toList.any fun level => !level.valid then some .level
  else none

def PermissionSetIdentity.valid (identity : PermissionSetIdentity) : Bool :=
  !identity.app.isEmpty && !identity.role.isEmpty && identity.scope.valid

namespace Resolver

section Resolve
variable (selector : Selector)

/-- Whether an entry is about the object. -/
def applies (entry : PermissionEntry) : Bool :=
  entry.kind = .named selector.kind && (entry.object = 0 || entry.object = selector.object)

/-- The level that an entry has for the operation. -/
def level (entry : PermissionEntry) : PermissionLevel :=
  match entry.rights.of selector.operation with
  | .named level => level
  | .unnamed _ => .none

/-- `Entries`, added to a result. -/
def entriesInto (result : Effective) : List PermissionEntry → Procedure Refusal Resolver Effective
  | [] => pure result
  | entry :: rest => do
    let resolver ← get
    if resolver.entries = selector.limits.entries then throw .entries
    set {resolver with entries := resolver.entries + 1}
    match entry.refusal with
    | some refusal => throw refusal
    | none =>
      if !applies selector entry then entriesInto result rest
      else
        let level := level selector entry
        entriesInto (result.include ⟨level, level ≠ .none && entry.securityFiltered⟩) rest

def entriesOf : List PermissionEntry → Procedure Refusal Resolver Effective :=
  entriesInto selector {}

def reference : Procedure Refusal Resolver PUnit := do
  let resolver ← get
  if resolver.edges = selector.limits.edges then throw .edges
  set {resolver with edges := resolver.edges + 1}

section Composed
variable (expand : PermissionSetIdentity → Procedure Refusal Resolver Effective)

def includesInto (result : Effective) :
    List PermissionSetIdentity → Procedure Refusal Resolver Effective
  | [] => pure result
  | identity :: rest => do
    let source ← expand identity
    includesInto (result.include source) rest

/-- `Includes`. -/
def includes : List PermissionSetIdentity → Procedure Refusal Resolver Effective :=
  includesInto expand {}

def extensionsInto (result : Effective) :
    List PermissionSetExtensionDef → Procedure Refusal Resolver Effective
  | [] => pure result
  | extension :: rest => do
    reference selector
    let entries ← entriesOf selector extension.permissions
    let included ← includes expand extension.included
    extensionsInto ((result.include entries).include included) rest

/-- What a declaration comes to. -/
def compose (definition : PermissionSetDef) : Procedure Refusal Resolver Effective := do
  let own ← entriesOf selector definition.permissions
  let included ← includes expand definition.included
  let result ← extensionsInto selector expand (own.include included) definition.extensions
  let excluded ← includes expand definition.excluded
  let entries ← entriesOf selector definition.excludedPermissions
  return {result with level := override (subtract result.level excluded.level) entries.level}

end Composed

variable (catalog : PermissionSetCatalog)

/-- `Set`. `room` is what the limit leaves of the path. -/
def set (room : Nat) (identity : PermissionSetIdentity) : Procedure Refusal Resolver Effective := do
  reference selector
  if !identity.valid then throw .identity
  match room with
  | 0 => throw .path
  | room + 1 => do
    let resolver ← get
    if identity ∈ resolver.active then throw .cycle
    match resolver.completed.lookup identity with
    | some effective => return effective
    | none => do
      if resolver.sets = selector.limits.sets then throw .sets
      MonadStateOf.set {resolver with sets := resolver.sets + 1}
      match catalog identity with
      | none => throw .declaration
      | some definition => do
        if definition.identity ≠ identity then throw .declaration
        modify fun resolver => {resolver with active := identity :: resolver.active}
        let result ← compose selector (set room) definition
        modify fun resolver => {resolver with
          active := resolver.active.tail
          completed := (identity, result) :: resolver.completed}
        return result

/-- `Resolve`. -/
def resolve (assigned : List PermissionSetIdentity) : Procedure Refusal Resolver PermissionLevel := do
  let result ← includes (set selector catalog selector.limits.depth) assigned
  if result.filtered then throw .filtered
  return result.level

end Resolve

end Resolver

/-- `ResolvePermission`. -/
def resolvePermission (catalog : PermissionSetCatalog) (assigned : List PermissionSetIdentity)
    (object : Int) (kind : Enumerated PermissionObject) (operation : Enumerated PermissionOperation)
    (limits : PermissionSetLimits) : Except Refusal PermissionLevel :=
  match kind, operation with
  | .named kind, .named operation =>
    if object ≤ 0 ∨ limits.sets = 0 ∨ limits.depth = 0 ∨ limits.edges = 0 ∨ limits.entries = 0 then
      .error .selector
    else ((Resolver.resolve ⟨object, kind, operation, limits⟩ catalog assigned).exec {}).1
  | _, _ => .error .selector

end Agiru.Permission
