import Agiru.Permission.Orders
import Agiru.Permission.Parsing

/-! A snapshot that was not refused is complete.

Every limit of the query keeps one row more than its bound, and the parser counts what came: a
part that lost rows has too many. The limit inside the recursion is seen by the relations of the
sets that were reached, of which it cut a part. -/
namespace Agiru.Permission
open Fallible Relation

/-! ### The complete tables -/

section Tables
variable (tables : PermissionTables) (user : Guid) (company : Bytes)

/-- What the tenant assignments of a user lead to. -/
def Reachable (set : TenantSet) : Prop :=
  ∃ base ∈ tenantSets (assignments tables user company),
    ReflTransGen (Limited.Leads (tenantRelations tables) TenantPermissionSetRel.owner
      TenantPermissionSetRel.related) base set

/-- All the rows of some sets. -/
def rowsOf (sets : List TenantSet) : List SnapshotRow :=
  (assignments tables user company).map AccessControl.snapshotRow ++
    sets.flatMap (declarationsOf tables) ++ (sets.flatMap (permissionsOf tables)).map .permission ++
    (sets.flatMap (relationsOf tables)).map .relation

/-- The tables restricted to what is reachable, in some order. -/
def Complete (rows : List SnapshotRow) : Prop :=
  ∃ sets : List TenantSet, sets.Nodup ∧ (∀ set, set ∈ sets ↔ Reachable tables user company set) ∧
    rows.Perm (rowsOf tables user company sets)

end Tables

/-- The level that rows come to, read without bounds. -/
def resolveRows (system : PermissionSetCatalog) (rows : List SnapshotRow) (object : Int)
    (kind : Enumerated PermissionObject) (operation : Enumerated PermissionOperation)
    (limits : PermissionSetLimits) : Except NativeRefusal PermissionLevel := do
  let statements ← (rows.mapM statementOf).mapError .snapshot
  (resolvePermission (catalogOf system statements) (assignedOf statements) object kind operation
    limits).mapError .policy

variable {tables : PermissionTables} {user : Guid} {company : Bytes} {limits : NativePermissionLimits}
  {rows rows' : List SnapshotRow}

/-! ### No part lost a row -/

theorem isDeclaration_of_mem {set : TenantSet} {row : SnapshotRow} (h : row ∈ declarationsOf tables set) :
    ∃ present, row = .declaration set present := by
  unfold declarationsOf at h
  split at h
  · exact ⟨false, List.mem_singleton.mp h⟩
  · obtain ⟨_, -, rfl⟩ := List.mem_map.mp h
    exact ⟨true, rfl⟩

/-- Every set has a row among the declarations. -/
theorem length_le_declarations (tables : PermissionTables) (sets : List TenantSet) :
    sets.length ≤ (sets.flatMap (declarationsOf tables)).length := by
  induction sets with
  | nil => exact Nat.le_refl 0
  | cons set rest ih =>
    have hone : 1 ≤ (declarationsOf tables set).length := by
      unfold declarationsOf
      split
      · exact Nat.le_refl 1
      · next hrows =>
        rw [List.length_map]
        exact List.length_pos_iff.mpr hrows
    rw [List.flatMap_cons, List.length_append, List.length_cons]
    omega

namespace Queried
variable (query : Queried tables user company limits rows)

theorem declarations_kind : ∀ row ∈ query.declarations, ∃ set present, row = .declaration set present := by
  intro row hrow
  obtain ⟨set, -, hmem⟩ := List.mem_flatMap.mp (query.declared.among.subset hrow)
  exact ⟨set, isDeclaration_of_mem hmem⟩

theorem countP_declarations {p : SnapshotRow → Bool} (hp : ∀ set present, p (.declaration set present) = false) :
    query.declarations.countP p = 0 := by
  rw [List.countP_eq_zero]
  intro row hrow
  obtain ⟨set, present, rfl⟩ := query.declarations_kind row hrow
  rw [hp]
  exact Bool.false_ne_true

/-- How many rows of a kind there are. -/
theorem countP_eq (p : SnapshotRow → Bool) :
    rows.countP p = (query.assigned.map AccessControl.snapshotRow).countP p + query.declarations.countP p +
      (query.permissions.map SnapshotRow.permission).countP p +
      (query.relations.map SnapshotRow.relation).countP p := by
  rw [query.union.countP_eq, List.countP_append, List.countP_append, List.countP_append]

theorem count_assignments : rows.countP SnapshotRow.isAssignment = query.assigned.length := by
  rw [query.countP_eq, query.countP_declarations fun _ _ => rfl]
  simp [List.countP_map, Function.comp_def, AccessControl.snapshotRow, SnapshotRow.isAssignment]

theorem count_declarations : rows.countP SnapshotRow.isDeclaration = query.declarations.length := by
  have hall : query.declarations.countP SnapshotRow.isDeclaration = query.declarations.length := by
    rw [List.countP_eq_length]
    intro row hrow
    obtain ⟨set, present, rfl⟩ := query.declarations_kind row hrow
    rfl
  rw [query.countP_eq, hall]
  simp [List.countP_map, Function.comp_def, AccessControl.snapshotRow, SnapshotRow.isDeclaration]

theorem count_permissions : rows.countP SnapshotRow.isPermission = query.permissions.length := by
  rw [query.countP_eq, query.countP_declarations fun _ _ => rfl]
  simp [List.countP_map, Function.comp_def, AccessControl.snapshotRow, SnapshotRow.isPermission]

theorem count_relations : rows.countP SnapshotRow.isRelation = query.relations.length := by
  rw [query.countP_eq, query.countP_declarations fun _ _ => rfl]
  simp [List.countP_map, Function.comp_def, AccessControl.snapshotRow, SnapshotRow.isRelation]

/-- The relations that the recursion follows are among those of the sets. -/
theorem joined_length_le (tables : PermissionTables) (sets : List TenantSet) :
    (Limited.joined (tenantRelations tables) TenantPermissionSetRel.owner sets).length ≤
      (sets.flatMap (relationsOf tables)).length := by
  refine (List.Sublist.flatMap_right sets fun set _ => ?_).length_le
  rw [tenantRelations, List.filter_filter]
  refine List.monotone_filter_right tables.relations fun row hrow => ?_
  exact (Bool.and_eq_true_iff.mp hrow).1

include query in
/-- Where every count is within its bound, nothing was lost. -/
theorem complete (hassignments : rows.countP SnapshotRow.isAssignment ≤ limits.assignments)
    (hsets : rows.countP SnapshotRow.isDeclaration ≤ limits.composition.sets)
    (hentries : rows.countP SnapshotRow.isPermission ≤ limits.composition.entries)
    (hedges : rows.countP SnapshotRow.isRelation ≤ limits.composition.edges) :
    Complete tables user company rows := by
  rw [query.count_assignments] at hassignments
  rw [query.count_declarations] at hsets
  rw [query.count_permissions] at hentries
  rw [query.count_relations] at hedges
  have hassigned := query.assignments.perm (by omega)
  have hdeclared := query.declared.perm (by omega)
  have hpermitted := query.permitted.perm (by omega)
  have hrelated := query.related.perm (by omega)
  -- A set that was dropped would have left too many declarations.
  have hmaterialized : query.sets.Perm query.reachable := by
    refine query.materialized.perm ?_
    have hlength := length_le_declarations tables query.sets
    rw [← hdeclared.length_eq] at hlength
    omega
  -- A relation that a round dropped would have left too many relations.
  have hroom : (Limited.joined (tenantRelations tables) TenantPermissionSetRel.owner
      query.reachable).length < limits.composition.edges + 1 := by
    have hle := joined_length_le tables query.reachable
    rw [← (hmaterialized.flatMap_right (relationsOf tables)).length_eq, ← hrelated.length_eq] at hle
    omega
  have hbase : ∀ set, set ∈ query.base ↔ set ∈ tenantSets (Permission.assignments tables user company) := by
    intro set
    rw [query.based]
    exact ((hassigned.filter _).map _).mem_iff
  refine ⟨query.sets, ?_, fun set => ?_, ?_⟩
  · exact hmaterialized.nodup_iff.mpr (query.recursive.rounds.nodup query.recursive.nodup)
  · rw [hmaterialized.mem_iff, query.recursive.reaches hroom]
    exact exists_congr fun base => and_congr_left fun _ => hbase base
  · refine query.union.trans ?_
    exact (((hassigned.map _).append hdeclared).append (hpermitted.map _)).append (hrelated.map _)

end Queried

/-! ### The order of the rows -/

theorem Complete.perm (h : Complete tables user company rows) (h' : Complete tables user company rows') :
    rows.Perm rows' := by
  obtain ⟨sets, hnodup, hmem, hrows⟩ := h
  obtain ⟨sets', hnodup', hmem', hrows'⟩ := h'
  have hsets : sets.Perm sets' := (List.perm_ext_iff_of_nodup hnodup hnodup').mpr fun set => by
    rw [hmem, hmem']
  refine hrows.trans (List.Perm.trans ?_ hrows'.symm)
  unfold rowsOf
  exact (((hsets.flatMap_right _).append_left _).append ((hsets.flatMap_right _).map _)).append
    ((hsets.flatMap_right _).map _)

theorem statements_perm {statements statements' : List Statement} (hrows : rows.Perm rows')
    (h : rows.mapM statementOf = .ok statements) (h' : rows'.mapM statementOf = .ok statements') :
    statements.Perm statements' := by
  have hread : ∀ {rows : List SnapshotRow} {statements : List Statement},
      rows.mapM statementOf = .ok statements →
      statements = rows.filterMap fun row => (statementOf row).toOption := by
    intro rows statements h
    have hall := of_mapM h
    clear h
    induction hall with
    | nil => rfl
    | cons hrow _ ih => rw [List.filterMap_cons, hrow, ih]; rfl
  rw [hread h, hread h']
  exact hrows.filterMap _

theorem SameDeclaration.refl (definition : PermissionSetDef) : SameDeclaration definition definition where
  identity := rfl
  permissions := fun _ => Iff.rfl
  included := fun _ => Iff.rfl
  excluded := fun _ => Iff.rfl
  excludedPermissions := fun _ => Iff.rfl
  extensions := fun extension h => ⟨extension, h, fun _ => Iff.rfl, fun _ => Iff.rfl⟩
  extensions' := fun extension h => ⟨extension, h, fun _ => Iff.rfl, fun _ => Iff.rfl⟩

theorem sameCatalog_of_perm (system : PermissionSetCatalog) {statements statements' : List Statement}
    (h : statements.Perm statements') :
    SameCatalog (catalogOf system statements) (catalogOf system statements') := by
  intro a
  unfold catalogOf
  split
  · cases system a with
    | none => exact .none
    | some definition => exact .some (SameDeclaration.refl definition)
  · by_cases hmem : .declared a ∈ statements
    · rw [if_pos hmem, if_pos (h.mem_iff.mp hmem)]
      exact .some ⟨rfl, fun _ => (h.filterMap _).mem_iff, fun _ => (h.filterMap _).mem_iff,
        fun _ => (h.filterMap _).mem_iff, fun _ => (h.filterMap _).mem_iff, nofun, nofun⟩
    · rw [if_neg hmem, if_neg (mt h.mem_iff.mpr hmem)]
      exact .none

/-! ### The level -/

/-- **A permission snapshot never silently truncates.** Whatever rows the limits of the query
dropped, a level that it returns was computed from the tables restricted to what the user's
assignments reach: it is what `ResolvePermission` gives on all their rows, and no order of them
gives another. -/
theorem snapshot_never_truncates (native : NativePermissions) (tables : PermissionTables) (user : Guid)
    (company : Bytes) (rows : List SnapshotRow) (query : Queried tables user company native.limits rows)
    (object : Int) (kind : Enumerated PermissionObject) (operation : Enumerated PermissionOperation)
    (level : PermissionLevel) (h : nativeLevel native user rows object kind operation = .ok level) :
    Complete tables user company rows ∧
    resolveRows native.system rows object kind operation native.limits.composition = .ok level ∧
    ∀ rows' limits level', Complete tables user company rows' →
      resolveRows native.system rows' object kind operation limits = .ok level' → level' = level := by
  obtain ⟨-, h⟩ := of_guard h
  obtain ⟨snapshot, hparse, h⟩ := of_bind h
  obtain ⟨statements, hstatements, hassigned, hfind, hassignments, hsets, hentries, hedges⟩ :=
    parse_ok (of_mapError hparse)
  have hcomplete := query.complete hassignments hsets hentries hedges
  rw [hfind, hassigned] at h
  refine ⟨hcomplete, ?_, fun rows' limits level' hcomplete' h' => ?_⟩
  · unfold resolveRows
    rw [hstatements]
    exact h
  · obtain ⟨statements', hstatements', h'⟩ := of_bind h'
    have hperm := statements_perm (hcomplete'.perm hcomplete) (of_mapError hstatements') hstatements
    exact resolved_unique (sameCatalog_of_perm native.system hperm)
      (fun _ => (hperm.filterMap _).mem_iff) (of_mapError h') (of_mapError h)

/-! One user with one tenant set, which includes another that reads one table. -/

def readerUser : Guid := ⟨List.replicate 16 1, rfl⟩

def clerkSet : TenantSet := (Bytes.ascii "app", Bytes.ascii "CLERK")

def readerSet : TenantSet := (Bytes.ascii "app", Bytes.ascii "READER")

def readerPermission : TenantPermission :=
  ⟨readerSet.1, readerSet.2, 0, 18, 1, 0, 0, 0, 0, [], 0⟩

def clerkIncludes : TenantPermissionSetRel := ⟨clerkSet.1, clerkSet.2, readerSet.1, readerSet.2, 1, 0⟩

def readerTables : PermissionTables where
  accessControl := [⟨readerUser, [], clerkSet.1, clerkSet.2, 1⟩]
  permissionSets := [⟨clerkSet.1, clerkSet.2⟩, ⟨readerSet.1, readerSet.2⟩]
  permissions := [readerPermission]
  relations := [clerkIncludes]

def readerNative : NativePermissions where
  system := fun _ => none
  limits := {}
  assignments := by decide
  sets := by decide
  edges := by decide
  entries := by decide
  bytes := by decide
  depth := by decide

def readerRows : List SnapshotRow :=
  [.assignment clerkSet.1 clerkSet.2 1, .declaration clerkSet true, .declaration readerSet true,
    .permission readerPermission, .relation clerkIncludes]

/-- The first round comes to the included set, the second to nothing new. -/
theorem readerRounds : Limited.Recursive 4097 (tenantRelations readerTables) TenantPermissionSetRel.owner
    TenantPermissionSetRel.related [clerkSet] [clerkSet, readerSet] where
  nodup := List.nodup_singleton _
  rounds := by
    have hfresh : ∀ set, set ∈ [readerSet] ↔
        set ∈ [clerkIncludes].map TenantPermissionSetRel.related ∧ set ∉ [clerkSet] := by
      intro set
      have hnew : readerSet ∉ [clerkSet] := by decide
      exact ⟨fun h => ⟨h, List.mem_singleton.mp h ▸ hnew⟩, And.left⟩
    refine .round [clerkIncludes] (by simp) (.all (by decide)) (List.nodup_singleton _) hfresh ?_
    exact .round [] (by simp) (.all (by decide)) .nil (by simp) (.done _)

def readerQuery : Queried readerTables readerUser (Bytes.ascii "CRONUS") readerNative.limits readerRows where
  assigned := readerTables.accessControl
  base := [clerkSet]
  reachable := [clerkSet, readerSet]
  sets := [clerkSet, readerSet]
  declarations := [.declaration clerkSet true, .declaration readerSet true]
  permissions := [readerPermission]
  relations := [clerkIncludes]
  assignments := .all (by decide)
  based := by
    intro set
    rfl
  recursive := readerRounds
  materialized := .all (by decide)
  declared := .all (by decide)
  permitted := .all (by decide)
  related := .all (by decide)
  union := .refl _

theorem readerRows_complete :
    nativeLevel readerNative readerUser readerRows 18 (.named .tableData) (.named .read) = .ok .direct ∧
    Complete readerTables readerUser (Bytes.ascii "CRONUS") readerRows :=
  have h : nativeLevel readerNative readerUser readerRows 18 (.named .tableData) (.named .read) =
      .ok .direct := by decide +kernel
  ⟨h, (snapshot_never_truncates readerNative readerTables readerUser (Bytes.ascii "CRONUS") readerRows
    readerQuery 18 (.named .tableData) (.named .read) .direct h).1⟩

end Agiru.Permission
