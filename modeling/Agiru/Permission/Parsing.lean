import Agiru.Permission.Snapshot

/-! What parsing a snapshot makes of its rows.

The nodes hold, for each tenant set, what the rows say of it, in their order (`Reads`); and
every row was counted, so a snapshot that was not refused has no more rows of a kind than the
kind's bound. -/
namespace Agiru.Permission
open Fallible
open SnapshotRow

variable {s : Statement} {limits : NativePermissionLimits}
variable {snapshot : Snapshot} {statements : List Statement} {parsing parsing' : Parsing}
  {rows : List SnapshotRow}

/-! ### What statements say of a set -/

def Statement.assignment : Statement → Option PermissionSetIdentity
  | assigned identity => some identity
  | _ => none

/-- The tenant set that a statement is about. -/
def Statement.owner : Statement → Option PermissionSetIdentity
  | assigned _ => none
  | declared identity | permits identity _ _ | refers identity _ _ => some identity

def Statement.entry (identity : PermissionSetIdentity) (excluded : Bool) :
    Statement → Option PermissionEntry
  | permits owner entry excludes => if owner = identity ∧ excludes = excluded then some entry else none
  | _ => none

def Statement.reference (identity : PermissionSetIdentity) (excluded : Bool) :
    Statement → Option PermissionSetIdentity
  | refers owner related excludes =>
    if owner = identity ∧ excludes = excluded then some related else none
  | _ => none

def assignedOf (statements : List Statement) : List PermissionSetIdentity :=
  statements.filterMap Statement.assignment

def nodeOf (identity : PermissionSetIdentity) (statements : List Statement) : Node where
  declared := .declared identity ∈ statements
  permissions := statements.filterMap (Statement.entry identity false)
  overrides := statements.filterMap (Statement.entry identity true)
  included := statements.filterMap (Statement.reference identity false)
  excluded := statements.filterMap (Statement.reference identity true)

/-- The catalogue of statements about tenant sets, beside the system's. -/
def catalogOf (system : PermissionSetCatalog) (statements : List Statement) : PermissionSetCatalog :=
  fun identity =>
    if identity.scope = .named .system then system identity
    else if .declared identity ∈ statements then some ((nodeOf identity statements).definition identity)
    else none

theorem nodeOf_append (identity : PermissionSetIdentity) (statements : List Statement) (s : Statement) :
    nodeOf identity (statements ++ [s]) =
      if s.owner = some identity then s.change (nodeOf identity statements)
      else nodeOf identity statements := by
  cases s with
  | assigned other => simp [nodeOf, Statement.owner, Statement.entry, Statement.reference]
  | declared other =>
    by_cases h : other = identity
    · simp [nodeOf, Statement.owner, Statement.entry, Statement.reference, Statement.change, h]
    · simp [nodeOf, Statement.owner, Statement.entry, Statement.reference, h, Ne.symm h]
  | permits other entry excluded | refers other related excluded =>
    by_cases h : other = identity
    · cases excluded <;>
        simp [nodeOf, Statement.owner, Statement.entry, Statement.reference, Statement.change, h]
    · simp [nodeOf, Statement.owner, Statement.entry, Statement.reference, h]

/-! ### The nodes -/

theorem Nodes.lookup_update (nodes : Nodes) (identity key : PermissionSetIdentity) (change : Node → Node) :
    (nodes.update identity change).lookup key =
      if key = identity then some (change (nodes.at identity)) else nodes.lookup key := by
  have hother : ∀ {key key' : PermissionSetIdentity}, key ≠ key' → (key == key') = false :=
    fun h => beq_eq_false_iff_ne.mpr h
  induction nodes with
  | nil =>
    by_cases h : key = identity
    · simp [Nodes.update, Nodes.at, h]
    · simp [Nodes.update, List.lookup_cons, h, hother h]
  | cons node rest ih =>
    obtain ⟨found, node⟩ := node
    unfold Nodes.update
    by_cases hfound : found = identity
    · subst hfound
      by_cases h : key = found
      · simp [Nodes.at, h]
      · simp [List.lookup_cons, h, hother h]
    · rw [if_neg hfound, List.lookup_cons, ih]
      by_cases h : key = identity
      · subst h
        simp [Nodes.at, List.lookup_cons, hother (Ne.symm hfound)]
      · rw [if_neg h, if_neg h, List.lookup_cons]

/-- A snapshot that holds what statements say. -/
structure Reads (snapshot : Snapshot) (statements : List Statement) : Prop where
  assigned : snapshot.assigned = assignedOf statements
  node : ∀ identity, snapshot.nodes.at identity = nodeOf identity statements
  owned : ∀ identity, (snapshot.nodes.lookup identity).isSome ↔
    ∃ s ∈ statements, s.owner = some identity

theorem Reads.empty : Reads {} [] := ⟨rfl, fun _ => rfl, fun _ => by simp⟩

theorem Reads.update (h : Reads snapshot statements)
    {identity : PermissionSetIdentity} (howner : s.owner = some identity) (hassigned : s.assignment = none) :
    Reads {snapshot with nodes := snapshot.nodes.update identity s.change} (statements ++ [s]) := by
  have hlookup := fun key => Nodes.lookup_update snapshot.nodes identity key s.change
  refine ⟨?_, fun key => ?_, fun key => ?_⟩
  · rw [h.assigned, assignedOf, assignedOf, List.filterMap_append]
    simp [hassigned]
  · rw [nodeOf_append, howner, ← h.node key, Nodes.at, hlookup]
    by_cases hkey : key = identity
    · subst hkey
      simp
    · rw [if_neg hkey, if_neg (by simpa using Ne.symm hkey), Nodes.at]
  · rw [hlookup]
    by_cases hkey : key = identity
    · subst hkey
      simp [howner]
    · rw [if_neg hkey, h.owned key]
      simp [howner, Ne.symm hkey]

theorem Reads.add {snapshot' : Snapshot}
    (h : Reads snapshot statements) (hadd : snapshot.add s = .ok snapshot') : Reads snapshot' (statements ++ [s]) := by
  cases s with
  | assigned identity =>
    obtain rfl := Except.ok.inj hadd
    refine ⟨?_, fun key => ?_, fun key => ?_⟩
    · rw [h.assigned]
      simp [assignedOf, Statement.assignment]
    · rw [nodeOf_append]
      exact h.node key
    · rw [h.owned key]
      simp [Statement.owner]
  | declared identity =>
    simp only [Snapshot.add] at hadd
    split at hadd
    · cases hadd
    · obtain rfl := Except.ok.inj hadd
      exact h.update rfl rfl
  | permits identity entry excluded | refers identity related excluded =>
    obtain rfl := Except.ok.inj hadd
    exact h.update rfl rfl

/-! ### Counting -/

def SnapshotRow.isAssignment : SnapshotRow → Bool
  | assignment .. => true
  | _ => false

def SnapshotRow.isDeclaration : SnapshotRow → Bool
  | declaration .. => true
  | _ => false

def SnapshotRow.isPermission : SnapshotRow → Bool
  | permission .. => true
  | _ => false

def SnapshotRow.isRelation : SnapshotRow → Bool
  | relation .. => true
  | _ => false

/-- What was counted so far, within the bounds. -/
structure Counted (limits : NativePermissionLimits) (parsing : Parsing) (rows : List SnapshotRow) :
    Prop where
  assignments : parsing.snapshot.assigned.length = rows.countP isAssignment
  sets : parsing.sets = rows.countP isDeclaration
  entries : parsing.entries = rows.countP isPermission
  edges : parsing.edges = rows.countP isRelation
  assignments_le : rows.countP isAssignment ≤ limits.assignments
  sets_le : rows.countP isDeclaration ≤ limits.composition.sets
  entries_le : rows.countP isPermission ≤ limits.composition.entries
  edges_le : rows.countP isRelation ≤ limits.composition.edges

/-- A row that was read, one step at a time. -/
theorem readRow_ok {row : SnapshotRow} (h : readRow limits parsing row = .ok parsing') :
    ∃ available counted statement snapshot,
      Parsing.count limits {parsing with available} row = .ok counted ∧
      statementOf row = .ok statement ∧ counted.snapshot.add statement = .ok snapshot ∧
      parsing' = {counted with snapshot} := by
  obtain ⟨available, -, h⟩ := of_bind h
  obtain ⟨counted, hcounted, h⟩ := of_bind h
  obtain ⟨statement, hstatement, h⟩ := of_bind h
  obtain ⟨snapshot, hsnapshot, h⟩ := of_bind h
  exact ⟨available, counted, statement, snapshot, hcounted, hstatement, hsnapshot, (Except.ok.inj h).symm⟩

/-- What a statement adds to the assigned sets. -/
theorem assigned_of_add {snapshot' : Snapshot} (h : snapshot.add s = .ok snapshot') :
    snapshot'.assigned = snapshot.assigned ++ s.assignment.toList := by
  cases s with
  | assigned identity =>
    obtain rfl := Except.ok.inj h
    rfl
  | declared identity =>
    obtain ⟨-, h⟩ := of_guard h
    obtain rfl := Except.ok.inj h
    simp [Statement.assignment]
  | permits identity entry excluded | refers identity related excluded =>
    obtain rfl := Except.ok.inj h
    simp [Statement.assignment]

/-- Only a row of that kind assigns a set. -/
theorem assignment_of_statement {row : SnapshotRow} (h : statementOf row = .ok s) :
    s.assignment.toList.length = if row.isAssignment then 1 else 0 := by
  cases row with
  | assignment app role scope =>
    obtain ⟨identity, -, rfl⟩ := of_map h
    rfl
  | declaration set present =>
    obtain ⟨-, h⟩ := of_guard h
    obtain ⟨identity, -, rfl⟩ := of_map h
    rfl
  | permission row =>
    obtain ⟨entry, -, h⟩ := of_bind h
    obtain ⟨identity, -, h⟩ := of_bind h
    obtain ⟨excluded, -, h⟩ := of_bind h
    obtain rfl := Except.ok.inj h
    rfl
  | relation row =>
    obtain ⟨scope, -, h⟩ := of_bind h
    obtain ⟨identity, -, h⟩ := of_bind h
    obtain ⟨excluded, -, h⟩ := of_bind h
    obtain rfl := Except.ok.inj h
    rfl

theorem Counted.row {row : SnapshotRow} (h : Counted limits parsing rows)
    (hstatement : statementOf row = .ok s) (hread : readRow limits parsing row = .ok parsing') :
    Counted limits parsing' (rows ++ [row]) := by
  obtain ⟨available, counted, statement, snapshot, hcounted, hfound, hadd, rfl⟩ := readRow_ok hread
  obtain rfl := Except.ok.inj (hfound.symm.trans hstatement)
  have hassigned := assigned_of_add hadd
  have hlength := assignment_of_statement hstatement
  obtain ⟨hassignments, hsets, hentries, hedges, hassignmentsLe, hsetsLe, hentriesLe, hedgesLe⟩ := h
  -- Only the count of the row's kind grows, and it was not at its bound.
  cases row with
  | assignment app role scope =>
    obtain ⟨hne, hcounted⟩ := of_guard hcounted
    obtain rfl := Except.ok.inj hcounted
    have hroom : parsing.snapshot.assigned.length ≠ limits.assignments := hne
    constructor <;> simp [hassigned, hlength, isAssignment, isDeclaration, isPermission, isRelation] <;> omega
  | declaration set present =>
    obtain ⟨hne, hcounted⟩ := of_guard hcounted
    obtain rfl := Except.ok.inj hcounted
    have hroom : parsing.sets ≠ limits.composition.sets := hne
    constructor <;> simp [hassigned, hlength, isAssignment, isDeclaration, isPermission, isRelation] <;> omega
  | permission row =>
    obtain ⟨hne, hcounted⟩ := of_guard hcounted
    obtain rfl := Except.ok.inj hcounted
    have hroom : parsing.entries ≠ limits.composition.entries := hne
    constructor <;> simp [hassigned, hlength, isAssignment, isDeclaration, isPermission, isRelation] <;> omega
  | relation row =>
    obtain ⟨hne, hcounted⟩ := of_guard hcounted
    obtain rfl := Except.ok.inj hcounted
    have hroom : parsing.edges ≠ limits.composition.edges := hne
    constructor <;> simp [hassigned, hlength, isAssignment, isDeclaration, isPermission, isRelation] <;> omega

theorem readRows_ok {before : List SnapshotRow} (hcounted : Counted limits parsing before)
    (hreads : Reads parsing.snapshot statements) (h : readRows limits parsing rows = .ok parsing') :
    Counted limits parsing' (before ++ rows) ∧ ∃ more, rows.mapM statementOf = .ok more ∧
      Reads parsing'.snapshot (statements ++ more) := by
  induction rows generalizing parsing before statements with
  | nil =>
    obtain rfl := Except.ok.inj h
    exact ⟨by rwa [List.append_nil], [], rfl, by rwa [List.append_nil]⟩
  | cons row rest ih =>
    obtain ⟨middle, hread, h⟩ := of_bind h
    obtain ⟨available, counted, s, snapshot, hcount, hstatement, hadd, hmiddle⟩ := readRow_ok hread
    have hsame : counted.snapshot = parsing.snapshot := by
      cases row <;>
      · obtain ⟨-, hcount⟩ := of_guard hcount
        obtain rfl := Except.ok.inj hcount
        rfl
    have hreads' : Reads middle.snapshot (statements ++ [s]) := by
      rw [hmiddle]
      exact (hsame ▸ hreads).add hadd
    obtain ⟨hall, more, hmore, hfinal⟩ := ih (hcounted.row hstatement hread) hreads' h
    refine ⟨by simpa using hall, s :: more, ?_, by simpa using hfinal⟩
    rw [List.mapM_cons, bind_ok hstatement, bind_ok hmore]
    rfl

/-- What a snapshot that was not refused holds. -/
theorem parse_ok (h : parse limits rows = .ok snapshot) :
    ∃ statements, rows.mapM statementOf = .ok statements ∧ snapshot.assigned = assignedOf statements ∧
      (∀ system, snapshot.find system = catalogOf system statements) ∧
      rows.countP isAssignment ≤ limits.assignments ∧
      rows.countP isDeclaration ≤ limits.composition.sets ∧
      rows.countP isPermission ≤ limits.composition.entries ∧
      rows.countP isRelation ≤ limits.composition.edges := by
  obtain ⟨parsing, hrows, h⟩ := of_bind h
  obtain ⟨hdeclared, h⟩ := of_guard h
  obtain rfl := Except.ok.inj h
  have hstart : Counted limits {available := limits.bytes} [] := by constructor <;> simp
  obtain ⟨hcounted, statements, hstatements, hreads⟩ := readRows_ok hstart .empty hrows
  refine ⟨statements, hstatements, hreads.assigned, fun system => ?_, hcounted.assignments_le,
    hcounted.sets_le, hcounted.entries_le, hcounted.edges_le⟩
  funext identity
  unfold Snapshot.find catalogOf
  split
  · rfl
  · have hnode := hreads.node identity
    unfold Nodes.at at hnode
    cases hlookup : parsing.snapshot.nodes.lookup identity with
    | none =>
      rw [if_neg]
      · rfl
      · intro hmem
        have := (hreads.owned identity).mpr ⟨_, hmem, rfl⟩
        rw [hlookup] at this
        cases this
    | some node =>
      rw [hlookup] at hnode
      obtain rfl : node = nodeOf identity statements := hnode
      obtain ⟨before, after, hsplit, -⟩ := List.lookup_eq_some_iff.mp hlookup
      have hmem : (nodeOf identity statements).declared = true := by
        by_contra hnot
        refine hdeclared (List.any_eq_true.mpr ⟨(identity, nodeOf identity statements), ?_, ?_⟩)
        · simp [hsplit]
        · exact congrArg not (Bool.eq_false_of_not_eq_true hnot)
      rw [if_pos (by simpa [nodeOf] using hmem)]
      rfl

end Agiru.Permission
