import Agiru.Library.Layers
import Agiru.Permission.Sets
import Agiru.Values.Field

/-! The snapshot of the permission tables.

One query reads, under limits, what a user is assigned, the tenant sets that its tenant
assignments lead to, and what those sets declare, permit and include. `parse` counts its
rows again and refuses where a count passes its bound; `nativeLevel` resolves a permission
on what it made of them. An application is the text of its identifier; a cell is kept as the
value of which it holds the text. -/
namespace Agiru.Permission
open Bytes

/-! ### The tables -/

structure AccessControl where
  user : Guid
  company : Bytes
  app : Bytes
  role : Bytes
  scope : Int

structure TenantPermissionSet where
  app : Bytes
  role : Bytes

structure TenantPermission where
  app : Bytes
  role : Bytes
  objectType : Int
  objectId : Int
  read : Int
  insert : Int
  modify : Int
  delete : Int
  execute : Int
  securityFilter : Bytes
  type : Int

structure TenantPermissionSetRel where
  app : Bytes
  role : Bytes
  relatedApp : Bytes
  relatedRole : Bytes
  relatedScope : Int
  type : Int

structure PermissionTables where
  accessControl : List AccessControl
  permissionSets : List TenantPermissionSet
  permissions : List TenantPermission
  relations : List TenantPermissionSetRel

/-- A tenant set, by its application and its role. -/
abbrev TenantSet := Bytes × Bytes

def TenantPermissionSet.owner (row : TenantPermissionSet) : TenantSet := (row.app, row.role)
def TenantPermission.owner (row : TenantPermission) : TenantSet := (row.app, row.role)
def TenantPermissionSetRel.owner (row : TenantPermissionSetRel) : TenantSet := (row.app, row.role)
def TenantPermissionSetRel.related (row : TenantPermissionSetRel) : TenantSet :=
  (row.relatedApp, row.relatedRole)

/-! ### The query -/

structure NativePermissionLimits where
  assignments : Nat := 128
  bytes : Nat := 8388608
  composition : PermissionSetLimits := {}

/-- A limit is an integer of the database. -/
abbrev maximumLimit : Nat := 2 ^ 31 - 2

/-- What the constructor of `NativePermissions` accepts. -/
structure NativePermissions where
  system : PermissionSetCatalog
  limits : NativePermissionLimits
  assignments : 0 < limits.assignments ∧ limits.assignments ≤ maximumLimit
  sets : 0 < limits.composition.sets ∧ limits.composition.sets ≤ maximumLimit
  edges : 0 < limits.composition.edges ∧ limits.composition.edges ≤ maximumLimit
  entries : 0 < limits.composition.entries ∧ limits.composition.entries ≤ maximumLimit
  bytes : 0 < limits.bytes
  depth : 0 < limits.composition.depth

/-- A row of the query: `A`, `S`, `P` and `E`. -/
inductive SnapshotRow
  | assignment (app role : Bytes) (scope : Int)
  | declaration (set : TenantSet) (present : Bool)
  | permission (row : TenantPermission)
  | relation (row : TenantPermissionSetRel)

section Query
variable (tables : PermissionTables) (user : Guid) (company : Bytes)

/-- The rows that assign the user something in the company. -/
def assignments : List AccessControl :=
  tables.accessControl.filter fun row => row.user = user && (row.company = [] || row.company = company)

def AccessControl.snapshotRow (row : AccessControl) : SnapshotRow :=
  .assignment row.app row.role row.scope

/-- The tenant sets among assignments. -/
def tenantSets (rows : List AccessControl) : List TenantSet :=
  (rows.filter fun row => row.scope = 1).map fun row => (row.app, row.role)

/-- The relations that lead on to a tenant set. -/
def tenantRelations : List TenantPermissionSetRel :=
  tables.relations.filter fun row => row.relatedScope = 1

/-- A set and its declarations; one that has none is still a row. -/
def declarationsOf (set : TenantSet) : List SnapshotRow :=
  match tables.permissionSets.filter fun row => row.owner = set with
  | [] => [.declaration set false]
  | rows => rows.map fun _ => .declaration set true

def permissionsOf (set : TenantSet) : List TenantPermission :=
  tables.permissions.filter fun row => row.owner = set

def relationsOf (set : TenantSet) : List TenantPermissionSetRel :=
  tables.relations.filter fun row => row.owner = set

/-- `kSql`: each limit keeps some rows, and the parts come in some order. -/
structure Queried (limits : NativePermissionLimits) (rows : List SnapshotRow) where
  assigned : List AccessControl
  base : List TenantSet
  reachable : List TenantSet
  sets : List TenantSet
  declarations : List SnapshotRow
  permissions : List TenantPermission
  relations : List TenantPermissionSetRel
  assignments : Limited.Keeps (limits.assignments + 1) (assignments tables user company) assigned
  based : ∀ set, set ∈ base ↔ set ∈ tenantSets assigned
  recursive : Limited.Recursive (limits.composition.edges + 1) (tenantRelations tables)
    TenantPermissionSetRel.owner TenantPermissionSetRel.related base reachable
  materialized : Limited.Keeps (limits.composition.sets + 1) reachable sets
  declared : Limited.Keeps (limits.composition.sets + 1) (sets.flatMap (declarationsOf tables))
    declarations
  permitted : Limited.Keeps (limits.composition.entries + 1) (sets.flatMap (permissionsOf tables))
    permissions
  related : Limited.Keeps (limits.composition.edges + 1) (sets.flatMap (relationsOf tables)) relations
  union : rows.Perm (assigned.map AccessControl.snapshotRow ++ declarations ++
    permissions.map .permission ++ relations.map .relation)

end Query

/-! ### Reading a row -/

inductive SnapshotRefusal
  | integer
  | scope
  | level
  | inclusion
  | object
  | identity
  | missing
  | duplicate
  | bytes
  | assignments
  | sets
  | entries
  | edges
  | undeclared
  deriving DecidableEq

def SnapshotRefusal.text : SnapshotRefusal → Bytes
  | integer => ascii "invalid native permission integer"
  | scope => ascii "invalid native permission scope"
  | level => ascii "invalid native permission level"
  | inclusion => ascii "invalid native permission inclusion type"
  | object => ascii "invalid native permission object type"
  | identity => ascii "empty native permission identity"
  | missing => ascii "missing native tenant permission set"
  | duplicate => ascii "duplicate native tenant permission set"
  | bytes => ascii "native permission byte bound exceeded"
  | assignments => ascii "native permission assignment bound exceeded"
  | sets => ascii "native permission set bound exceeded"
  | entries => ascii "native permission entry bound exceeded"
  | edges => ascii "native permission relation bound exceeded"
  | undeclared => ascii "undeclared native tenant permission owner"

/-- `Integer`. -/
def integerOf (n : Int) : Except SnapshotRefusal Int :=
  if -2 ^ 31 ≤ n ∧ n < 2 ^ 31 then .ok n else .error .integer

/-- `Scope`. -/
def scopeOf (n : Int) : Except SnapshotRefusal PermissionScope :=
  if n = 0 then .ok .system else if n = 1 then .ok .tenant else .error .scope

/-- `Level`. -/
def levelOf (n : Int) : Except SnapshotRefusal PermissionLevel :=
  if n = 0 then .ok .none
  else if n = 1 then .ok .direct
  else if n = 2 then .ok .indirect
  else .error .level

/-- `Excluded`. -/
def excludedOf (n : Int) : Except SnapshotRefusal Bool :=
  if n = 0 then .ok false else if n = 1 then .ok true else .error .inclusion

/-- `Kind`. -/
def kindOf (n : Int) : Except SnapshotRefusal PermissionObject := do
  match ← integerOf n with
  | 0 => return .tableData
  | 1 => return .table
  | 3 => return .report
  | 5 => return .codeunit
  | 6 => return .xmlPort
  | 7 => return .menuSuite
  | 8 => return .page
  | 9 => return .query
  | 10 => return .system
  | _ => throw .object

/-- `Identity`. -/
def identityOf (app role : Bytes) (scope : Int) : Except SnapshotRefusal PermissionSetIdentity := do
  let scope ← scopeOf scope
  if app.isEmpty || role.isEmpty then throw .identity
  return ⟨app, role, .named scope⟩

/-- What a row says. -/
inductive Statement
  | assigned (identity : PermissionSetIdentity)
  | declared (identity : PermissionSetIdentity)
  | permits (identity : PermissionSetIdentity) (entry : PermissionEntry) (excluded : Bool)
  | refers (identity related : PermissionSetIdentity) (excluded : Bool)
  deriving DecidableEq

def entryOf (row : TenantPermission) : Except SnapshotRefusal PermissionEntry := do
  let object ← integerOf row.objectId
  let kind ← kindOf row.objectType
  let read ← levelOf row.read
  let insert ← levelOf row.insert
  let modify ← levelOf row.modify
  let delete ← levelOf row.delete
  let execute ← levelOf row.execute
  return {
    rights := ⟨.named read, .named insert, .named modify, .named delete, .named execute⟩
    object := object
    kind := .named kind
    securityFiltered := row.securityFilter ≠ []}

/-- What `Assignment`, `Declaration`, `Permission` and `Relation` read of a row. -/
def statementOf : SnapshotRow → Except SnapshotRefusal Statement
  | .assignment app role scope => .assigned <$> identityOf app role scope
  | .declaration set present => do
    if !present then throw .missing
    .declared <$> identityOf set.1 set.2 1
  | .permission row => do
    let entry ← entryOf row
    let identity ← identityOf row.app row.role 1
    return .permits identity entry (← excludedOf row.type)
  | .relation row => do
    let scope ← scopeOf row.relatedScope
    let identity ← identityOf row.app row.role 1
    return .refers identity ⟨row.relatedApp, row.relatedRole, .named scope⟩ (← excludedOf row.type)

/-! ### The nodes -/

structure Node where
  declared : Bool := false
  permissions : List PermissionEntry := []
  overrides : List PermissionEntry := []
  included : List PermissionSetIdentity := []
  excluded : List PermissionSetIdentity := []
  deriving DecidableEq

abbrev Nodes := List (PermissionSetIdentity × Node)

/-- `nodes_[identity]`, changed. -/
def Nodes.update (identity : PermissionSetIdentity) (change : Node → Node) : Nodes → Nodes
  | [] => [(identity, change {})]
  | (key, node) :: rest =>
    if key = identity then (key, change node) :: rest else (key, node) :: Nodes.update identity change rest

def Nodes.at (nodes : Nodes) (identity : PermissionSetIdentity) : Node :=
  (nodes.lookup identity).getD {}

structure Snapshot where
  assigned : List PermissionSetIdentity := []
  nodes : Nodes := []

/-- What a statement adds to its node. -/
def Statement.change : Statement → Node → Node
  | assigned _, node => node
  | declared _, node => {node with declared := true}
  | permits _ entry excluded, node =>
    if excluded then {node with overrides := node.overrides ++ [entry]}
    else {node with permissions := node.permissions ++ [entry]}
  | refers _ related excluded, node =>
    if excluded then {node with excluded := node.excluded ++ [related]}
    else {node with included := node.included ++ [related]}

def Snapshot.add (snapshot : Snapshot) : Statement → Except SnapshotRefusal Snapshot
  | .assigned identity => .ok {snapshot with assigned := snapshot.assigned ++ [identity]}
  | .declared identity =>
    if (snapshot.nodes.at identity).declared then .error .duplicate
    else .ok {snapshot with nodes := snapshot.nodes.update identity (Statement.declared identity).change}
  | .permits identity entry excluded => .ok {snapshot with
      nodes := snapshot.nodes.update identity (Statement.permits identity entry excluded).change}
  | .refers identity related excluded => .ok {snapshot with
      nodes := snapshot.nodes.update identity (Statement.refers identity related excluded).change}

/-! ### Parsing -/

/-- What the next row is read under. -/
structure Parsing where
  available : Nat
  sets : Nat := 0
  entries : Nat := 0
  edges : Nat := 0
  snapshot : Snapshot := {}

def booleanCell (b : Bool) : Bytes := if b then ascii "true" else ascii "false"

/-- The cells that are not null. -/
def SnapshotRow.cells : SnapshotRow → List Bytes
  | assignment app role scope => [ascii "A", app, role, intText scope]
  | declaration set present => [ascii "S", set.1, set.2, ascii "1", booleanCell present]
  | permission row => [ascii "P", row.app, row.role, ascii "1", intText row.objectType,
      intText row.objectId, intText row.read, intText row.insert, intText row.modify,
      intText row.delete, intText row.execute, booleanCell (row.securityFilter ≠ []),
      intText row.type]
  | relation row => [ascii "E", row.app, row.role, ascii "1", row.relatedApp, row.relatedRole,
      intText row.relatedScope, intText row.type]

/-- `RemainingBytes`. -/
def remainingBytes (available : Nat) : List Bytes → Except SnapshotRefusal Nat
  | [] => .ok available
  | cell :: rest =>
    if available < cell.length then .error .bytes else remainingBytes (available - cell.length) rest

/-- The bound of the row's kind. -/
def Parsing.count (limits : NativePermissionLimits) (parsing : Parsing) :
    SnapshotRow → Except SnapshotRefusal Parsing
  | .assignment .. =>
    if parsing.snapshot.assigned.length = limits.assignments then .error .assignments else .ok parsing
  | .declaration .. =>
    if parsing.sets = limits.composition.sets then .error .sets
    else .ok {parsing with sets := parsing.sets + 1}
  | .permission .. =>
    if parsing.entries = limits.composition.entries then .error .entries
    else .ok {parsing with entries := parsing.entries + 1}
  | .relation .. =>
    if parsing.edges = limits.composition.edges then .error .edges
    else .ok {parsing with edges := parsing.edges + 1}

def readRow (limits : NativePermissionLimits) (parsing : Parsing) (row : SnapshotRow) :
    Except SnapshotRefusal Parsing := do
  let available ← remainingBytes parsing.available row.cells
  let parsing ← Parsing.count limits {parsing with available} row
  let statement ← statementOf row
  let snapshot ← parsing.snapshot.add statement
  return {parsing with snapshot}

def readRows (limits : NativePermissionLimits) (parsing : Parsing) :
    List SnapshotRow → Except SnapshotRefusal Parsing
  | [] => .ok parsing
  | row :: rest => do
    let parsing ← readRow limits parsing row
    readRows limits parsing rest

/-- `Parse`. -/
def parse (limits : NativePermissionLimits) (rows : List SnapshotRow) :
    Except SnapshotRefusal Snapshot := do
  let parsing ← readRows limits {available := limits.bytes} rows
  if parsing.snapshot.nodes.any fun node => !node.2.declared then throw .undeclared
  return parsing.snapshot

def Node.definition (identity : PermissionSetIdentity) (node : Node) : PermissionSetDef where
  identity := identity
  permissions := node.permissions
  included := node.included
  excluded := node.excluded
  excludedPermissions := node.overrides

/-- `Find`. -/
def Snapshot.find (system : PermissionSetCatalog) (snapshot : Snapshot) : PermissionSetCatalog :=
  fun identity =>
    if identity.scope = .named .system then system identity
    else (snapshot.nodes.lookup identity).map (Node.definition identity)

/-! ### The level -/

inductive NativeRefusal
  | unavailable
  | snapshot (refusal : SnapshotRefusal)
  | policy (refusal : Refusal)
  deriving DecidableEq

/-- `NativePermissions::Level`, for the rows that the query gave. -/
def nativeLevel (native : NativePermissions) (user : Guid) (rows : List SnapshotRow) (object : Int)
    (kind : Enumerated PermissionObject) (operation : Enumerated PermissionOperation) :
    Except NativeRefusal PermissionLevel := do
  if user = .zero then throw .unavailable
  let snapshot ← (parse native.limits rows).mapError .snapshot
  (resolvePermission (snapshot.find native.system) snapshot.assigned object kind operation
    native.limits.composition).mapError .policy

end Agiru.Permission
