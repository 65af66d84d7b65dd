import Agiru.Permission.Resolution

/-! Permission resolution equals its recursive definition. -/
namespace Agiru.Permission
open Layers Relation Procedure
open Resolver

variable {catalog : PermissionSetCatalog} {assigned : List PermissionSetIdentity} {selector : Selector}
variable {a : PermissionSetIdentity}
variable {α : Type} {p : Procedure Refusal Resolver α}

theorem remembers_initial : Remembers selector catalog assigned {} :=
  ⟨.nil, by simp, rfl, List.nodup_nil, by simp [keys]⟩

theorem reached_assigned : ∀ a ∈ assigned, Reached catalog assigned a := fun a ha => ⟨a, ha, .refl⟩

/-- What the assigned sets came to, if they came to anything. -/
theorem exec_assigned_ok {e : Effective} {t : Resolver}
    (h : exec (includes (Resolver.set selector catalog selector.limits.depth) assigned) {} =
      (.ok e, t)) :
    Remembers selector catalog assigned t ∧ (∀ a ∈ assigned, a ∈ t.keys) ∧
      Adds selector catalog [] assigned {} e := by
  obtain ⟨ht, -, hkeys, hadds⟩ := exec_includesInto_ok (expands_set selector.limits.depth)
    remembers_initial reached_assigned h
  exact ⟨ht, hkeys, hadds⟩

/-! ### Cycles and missing sets -/

/-- What the assigned sets came to, they came to without a cycle or a missing set. -/
theorem declared_of_exec {e : Effective} {t : Resolver}
    (h : exec (includes (Resolver.set selector catalog selector.limits.depth) assigned) {} =
      (.ok e, t)) (ha : Reached catalog assigned a) : Declared catalog a ∧ ¬ TransGen (Refers catalog) a a := by
  obtain ⟨ht, hkeys, -⟩ := exec_assigned_ok h
  obtain ⟨root, hroot, hpath⟩ := ha
  have hmem := ht.built.closed_trans (hkeys root hroot) hpath
  obtain ⟨p, hp, rfl⟩ := List.mem_map.mp hmem
  exact ⟨(ht.means p hp).1, ht.built.acyclic hmem⟩

/-- What is refused while sets are expanded, is refused as a policy. -/
abbrev Policy {α : Type} : Procedure Refusal Resolver α → Prop := Raises fun e => e ≠ .filtered

theorem policy_guard {c : Prop} [Decidable c] {e : Refusal} (he : e ≠ .filtered) (hp : Policy p) :
    Policy (if c then throw e >>= fun _ : PUnit => p else p) := by
  split
  · exact .bind (.throw he) fun _ => hp
  · exact hp

theorem policy_get {f : Resolver → Procedure Refusal Resolver α} (hf : ∀ s, Policy (f s)) : Policy (get >>= f) :=
  .bind (.of_returns fun s => ⟨s, s, rfl⟩) hf

theorem policy_set {s : Resolver} (hp : Policy p) : Policy (set s >>= fun _ => p) :=
  .bind (.of_returns fun _ => ⟨⟨⟩, s, rfl⟩) fun _ => hp

theorem policy_modify {f : Resolver → Resolver} (hp : Policy p) : Policy (modify f >>= fun _ => p) :=
  .bind (.of_returns fun s => ⟨⟨⟩, f s, rfl⟩) fun _ => hp

theorem policy_pure (a : α) : Policy (pure a) := .of_returns fun s => ⟨a, s, rfl⟩

theorem policy_reference : Policy (reference selector) := by
  unfold reference
  refine policy_get fun s => ?_
  exact policy_guard (by decide) (.of_returns fun _ => ⟨⟨⟩, _, rfl⟩)

theorem policy_entriesInto (result : Effective) (entries : List PermissionEntry) :
    Policy (entriesInto selector result entries) := by
  induction entries generalizing result with
  | nil => exact policy_pure result
  | cons entry rest ih =>
    unfold entriesInto
    refine policy_get fun s => policy_guard (by decide) (policy_set ?_)
    cases hrefusal : entry.refusal with
    | some refusal =>
      refine .throw ?_
      rintro rfl
      unfold PermissionEntry.refusal at hrefusal
      split at hrefusal
      · cases hrefusal
      · split at hrefusal <;> cases hrefusal
    | none =>
      dsimp only
      split
      · exact ih _
      · exact ih _

section Expand
variable {expand : PermissionSetIdentity → Procedure Refusal Resolver Effective}
  (hexpand : ∀ a, Policy (expand a))
include hexpand

theorem policy_includesInto (result : Effective) (ids : List PermissionSetIdentity) :
    Policy (includesInto expand result ids) := by
  induction ids generalizing result with
  | nil => exact policy_pure result
  | cons a rest ih => exact .bind (hexpand a) fun _ => ih _

theorem policy_extensionsInto (result : Effective) (extensions : List PermissionSetExtensionDef) :
    Policy (extensionsInto selector expand result extensions) := by
  induction extensions generalizing result with
  | nil => exact policy_pure result
  | cons extension rest ih =>
    exact .bind policy_reference fun _ => .bind (policy_entriesInto _ _) fun _ =>
      .bind (policy_includesInto hexpand _ _) fun _ => ih _

theorem policy_compose (definition : PermissionSetDef) :
    Policy (compose selector expand definition) :=
  .bind (policy_entriesInto _ _) fun _ => .bind (policy_includesInto hexpand _ _) fun _ =>
    .bind (policy_extensionsInto hexpand _ _) fun _ => .bind (policy_includesInto hexpand _ _) fun _ =>
      .bind (policy_entriesInto _ _) fun _ => policy_pure _

end Expand

theorem policy_set_expand (room : Nat) (a : PermissionSetIdentity) :
    Policy (Resolver.set selector catalog room a) := by
  induction room generalizing a with
  | zero =>
    unfold Resolver.set
    exact .bind policy_reference fun _ => policy_guard (by decide) (.throw (by decide))
  | succ room ih =>
    unfold Resolver.set
    refine .bind policy_reference fun _ => policy_guard (by decide) (policy_get fun s => ?_)
    refine policy_guard (by decide) ?_
    cases s.completed.lookup a with
    | some effective => exact policy_pure effective
    | none =>
      refine policy_guard (by decide) (policy_set ?_)
      cases catalog a with
      | none => exact .throw (by decide)
      | some definition =>
        exact policy_guard (by decide) (policy_modify (.bind (policy_compose ih definition) fun _ =>
          policy_modify (policy_pure _)))

theorem code_of_policy {e : Refusal} (h : e ≠ .filtered) : e.code = Bytes.ascii "PermissionPolicy" := by
  cases e <;> first | rfl | exact absurd rfl h

/-! ### Resolution -/

/-- Limits that the resolver accepts. -/
def PermissionSetLimits.Positive (limits : PermissionSetLimits) : Prop :=
  0 < limits.sets ∧ 0 < limits.depth ∧ 0 < limits.edges ∧ 0 < limits.entries

/-- A resolution that is not refused at once runs the resolver. -/
theorem resolvePermission_eq {object : Int} {kind : PermissionObject} {operation : PermissionOperation}
    {limits : PermissionSetLimits} (hobject : 0 < object) (hlimits : limits.Positive) :
    resolvePermission catalog assigned object (.named kind) (.named operation) limits =
      (exec (resolve ⟨object, kind, operation, limits⟩ catalog assigned) {}).1 := by
  obtain ⟨hsets, hdepth, hedges, hentries⟩ := hlimits
  exact if_neg (by omega)

/-- And is refused as a policy, or comes to the level of the assigned sets, unless a filter
contributes. -/
theorem resolve_cases (selector : Selector) (catalog : PermissionSetCatalog)
    (assigned : List PermissionSetIdentity) :
    (∃ e, e ≠ .filtered ∧ (exec (resolve selector catalog assigned) {}).1 = .error e) ∨
    ((∀ a, Reached catalog assigned a → Declared catalog a ∧ ¬ TransGen (Refers catalog) a a) ∧
      (((∃ a ∈ assigned, Filtered catalog selector a) ∧
        (exec (resolve selector catalog assigned) {}).1 = .error .filtered) ∨
      (¬ (∃ a ∈ assigned, Filtered catalog selector a) ∧
        ∃ level, (exec (resolve selector catalog assigned) {}).1 = .ok level ∧
          ∀ value, Solves selector catalog value → level = joined value assigned))) := by
  have hpolicy : Policy (includes (Resolver.set selector catalog selector.limits.depth) assigned) :=
    policy_includesInto (policy_set_expand _) _ _
  unfold resolve
  rw [exec_bind]
  rcases hrun : exec (includes (Resolver.set selector catalog selector.limits.depth) assigned) {}
    with ⟨e | e, t⟩
  · exact .inl ⟨e, hpolicy _ _ _ hrun, rfl⟩
  · refine .inr ⟨fun a ha => declared_of_exec hrun ha, ?_⟩
    obtain ⟨-, -, hadds⟩ := exec_assigned_ok hrun
    have hfiltered : e.filtered = true ↔ ∃ a ∈ assigned, Filtered catalog selector a := by
      rw [hadds.filtered]
      simp
    dsimp only
    by_cases hf : e.filtered = true
    · rw [if_pos hf]
      exact .inl ⟨hfiltered.mp hf, rfl⟩
    · rw [if_neg hf]
      refine .inr ⟨fun h => hf (hfiltered.mpr h), e.level, rfl, fun value hvalue => ?_⟩
      have hbot : ({} : Effective).level = ⊥ := rfl
      rw [hadds.level value hvalue, hbot, joined_nil, bot_sup_eq, bot_sup_eq]

/-- Where the limits fit a sound catalogue without cycles, nothing is refused as a policy. -/
theorem resolve_fits (hacyclic : Acyclic catalog)
    (hsound : ∀ a, Reached catalog assigned a → Sound catalog a)
    (hfits : Fits hacyclic selector.limits assigned) :
    ((∃ a ∈ assigned, Filtered catalog selector a) →
      (exec (resolve selector catalog assigned) {}).1 = .error .filtered) ∧
    (¬ (∃ a ∈ assigned, Filtered catalog selector a) →
      (exec (resolve selector catalog assigned) {}).1 =
        .ok (joined (level hacyclic selector) assigned)) := by
  have hexpanding : Expanding selector catalog assigned (Resolver.set selector catalog selector.limits.depth)
      (fun b => (need hacyclic b).references) (fun b => (need hacyclic b).entries) [] assigned := by
    intro a ha
    refine ⟨reached_assigned a ha, fun s hs hactive hroom => ?_⟩
    refine set_returns hacyclic hsound hfits (reached_assigned a ha) (hfits.path a ha) hs ?_ hroom
    simp [hactive]
  obtain ⟨e, t, hexec, -⟩ : Returns (includesInto
      (Resolver.set selector catalog selector.limits.depth) {} assigned) {} _ _ :=
    includesInto_returns (expands_set selector.limits.depth) hexpanding remembers_initial rfl
        ⟨by simpa using hfits.edges, by simpa using hfits.entries⟩
  rcases resolve_cases selector catalog assigned with
    ⟨refusal, hne, hrefused⟩ | ⟨-, ⟨hfiltered, hraised⟩ | ⟨hfiltered, value, hok, hvalue⟩⟩
  · exfalso
    unfold resolve includes at hrefused
    rw [exec_bind_ok hexec] at hrefused
    split at hrefused
    · cases hrefused
      exact hne rfl
    · cases hrefused
  · exact ⟨fun _ => hraised, fun hnone => absurd hfiltered hnone⟩
  · refine ⟨fun hsome => absurd hsome hfiltered, fun _ => ?_⟩
    rw [hok, hvalue _ (level_eq hacyclic selector)]

section Same
variable {catalog' : PermissionSetCatalog} {assigned' : List PermissionSetIdentity}
  (hsame : SameCatalog catalog catalog')
include hsame

theorem SameCatalog.level (h : Acyclic catalog) (h' : Acyclic catalog') (selector : Selector) :
    level h selector = Permission.level h' selector := by
  refine solution_unique h.wellFounded (levelStep_local selector) (level_eq h selector) fun a => ?_
  rw [hsame.levelStep]
  exact level_eq h' selector a

theorem SameCatalog.acyclic (h : Acyclic catalog) : Acyclic catalog' := by
  refine ⟨h.finite.subset fun a ⟨definition, ha⟩ => ?_, ?_⟩
  · obtain ⟨found, hfound, -⟩ := (hsame.symm_iff (fun _ _ _ => Iff.rfl) a).mpr ⟨definition, ha, trivial⟩
    exact ⟨found, hfound⟩
  · rw [← hsame.refers]
    exact h.no_cycle

theorem SameCatalog.sound (h : Sound catalog a) : Sound catalog' a := by
  refine ⟨h.1, (hsame.symm_iff (fun definition definition' hd => ?_) a).mp h.2⟩
  rw [hd.identity]
  refine and_congr_right fun _ => forall_congr' fun entry => imp_congr_left ?_
  simp only [PermissionSetDef.entries, List.mem_append]
  exact or_congr (hd.granting entry) (hd.excludedPermissions entry)

theorem SameCatalog.reached (hassigned : SameMembers assigned assigned') :
    Reached catalog assigned a ↔ Reached catalog' assigned' a := by
  unfold Reached
  rw [hsame.refers]
  exact exists_congr fun b => and_congr_left fun _ => hassigned b

end Same

/-- **Permission resolution equals its recursive definition.** On a sound catalogue without
cycles, under limits that fit, it comes to the join of the levels of the assigned sets, or
refuses because a filtered entry contributes. Neither the order nor the repetitions of a
list count; more assigned sets never lower the level; and where a cycle or a missing set is
reached, every order of the lists is refused. -/
theorem resolution_is_composition (object : Int) (kind : PermissionObject)
    (operation : PermissionOperation) (limits : PermissionSetLimits) (hobject : 0 < object)
    (hlimits : limits.Positive) (catalog : PermissionSetCatalog) :
    let resolution catalog assigned :=
      resolvePermission catalog assigned object (.named kind) (.named operation) limits
    let selector : Selector := ⟨object, kind, operation, limits⟩
    (∀ (h : Acyclic catalog) (assigned : List PermissionSetIdentity),
      (∀ a, Reached catalog assigned a → Sound catalog a) → Fits h limits assigned →
      ((∃ a ∈ assigned, Filtered catalog selector a) → resolution catalog assigned = .error .filtered) ∧
      (¬ (∃ a ∈ assigned, Filtered catalog selector a) →
        resolution catalog assigned = .ok (joined (level h selector) assigned)) ∧
      ∀ (catalog' : PermissionSetCatalog) (hsame : SameCatalog catalog catalog')
        (assigned' : List PermissionSetIdentity), SameMembers assigned assigned' →
        Fits (hsame.acyclic h) limits assigned' → resolution catalog' assigned' = resolution catalog assigned) ∧
    (Acyclic catalog → ∀ (assigned assigned' : List PermissionSetIdentity), assigned ⊆ assigned' →
      ∀ l l', resolution catalog assigned = .ok l → resolution catalog assigned' = .ok l' → l ≤ l') ∧
    ∀ (assigned : List PermissionSetIdentity),
      (∃ a, Reached catalog assigned a ∧ (¬ Declared catalog a ∨ TransGen (Refers catalog) a a)) →
      ∃ refusal, resolution catalog assigned = .error refusal ∧
        refusal.code = Bytes.ascii "PermissionPolicy" := by
  dsimp only
  have hresolve : ∀ catalog assigned,
      resolvePermission catalog assigned object (.named kind) (.named operation) limits =
        (exec (resolve ⟨object, kind, operation, limits⟩ catalog assigned) {}).1 :=
    fun catalog assigned => resolvePermission_eq hobject hlimits
  refine ⟨fun h assigned hsound hfits => ?_, fun h assigned assigned' hsub l l' hl hl' => ?_, fun assigned hbad => ?_⟩
  · obtain ⟨hraised, hok⟩ := @resolve_fits catalog assigned ⟨object, kind, operation, limits⟩ h hsound hfits
    rw [hresolve]
    refine ⟨hraised, hok, fun catalog' hsame assigned' hassigned hfits' => ?_⟩
    obtain ⟨hraised', hok'⟩ := @resolve_fits catalog' assigned'
      ⟨object, kind, operation, limits⟩ (hsame.acyclic h) (fun a ha => hsame.sound
          (hsound a ((hsame.reached hassigned).mpr ha))) hfits'
    have hfiltered : (∃ a ∈ assigned, Filtered catalog ⟨object, kind, operation, limits⟩ a) ↔
        ∃ a ∈ assigned', Filtered catalog' ⟨object, kind, operation, limits⟩ a :=
      exists_congr fun a => and_congr (hassigned a) (hsame.filtered _ a)
    rw [hresolve]
    by_cases hf : ∃ a ∈ assigned, Filtered catalog ⟨object, kind, operation, limits⟩ a
    · rw [hraised hf, hraised' (hfiltered.mp hf)]
    · rw [hok hf, hok' (mt hfiltered.mpr hf), hsame.level h (hsame.acyclic h), joined_congr_mem hassigned]
  · rw [hresolve] at hl hl'
    have hlevel : ∀ assigned l,
        (exec (resolve ⟨object, kind, operation, limits⟩ catalog assigned) {}).1 = .ok l →
        l = joined (level h ⟨object, kind, operation, limits⟩) assigned := by
      intro assigned l hl
      rcases resolve_cases ⟨object, kind, operation, limits⟩ catalog assigned with
        ⟨e, -, he⟩ | ⟨-, ⟨-, he⟩ | ⟨-, value, hok, hvalue⟩⟩
      · cases he.symm.trans hl
      · cases he.symm.trans hl
      · obtain rfl := Except.ok.inj (hok.symm.trans hl)
        exact hvalue _ (level_eq h _)
    rw [hlevel assigned l hl, hlevel assigned' l' hl']
    exact joined_mono hsub
  · obtain ⟨a, ha, hmissing⟩ := hbad
    rw [hresolve]
    rcases resolve_cases ⟨object, kind, operation, limits⟩ catalog assigned with
      ⟨e, he, hrefused⟩ | ⟨hgood, -⟩
    · exact ⟨e, hrefused, code_of_policy he⟩
    · obtain ⟨hdeclared, hcycle⟩ := hgood a ha
      exact absurd hmissing (not_or.mpr ⟨not_not.mpr hdeclared, hcycle⟩)

/-! ### A set that is included twice -/

def role (name : Bytes) : PermissionSetIdentity := ⟨Bytes.ascii "system", name, .named .system⟩

/-- `READER` grants reading; `CLERK` includes it, and has an extension that grants inserting. -/
def reader : PermissionSetDef where
  identity := role (Bytes.ascii "READER")
  permissions := [{rights := {read := .named .direct}}]

def clerk : PermissionSetDef where
  identity := role (Bytes.ascii "CLERK")
  included := [reader.identity]
  extensions := [{permissions := [{rights := {insert := .named .direct}}]}]

/-- `OFFICE` includes both, under an excluded entry; `VAULT` includes `READER`, less `CLERK`. -/
def office : PermissionSetDef where
  identity := role (Bytes.ascii "OFFICE")
  included := [reader.identity, clerk.identity]
  excludedPermissions := [{rights := {read := .named .indirect}}]

def vault : PermissionSetDef where
  identity := role (Bytes.ascii "VAULT")
  included := [reader.identity]
  excluded := [clerk.identity]

def houseSets : List PermissionSetDef := [reader, clerk, office, vault]

def house : PermissionSetCatalog := fun a => houseSets.find? (·.identity = a)

theorem house_some {definition : PermissionSetDef} (h : house a = some definition) :
    definition ∈ houseSets ∧ definition.identity = a :=
  ⟨List.mem_of_find?_eq_some h, by simpa using List.find?_some h⟩

/-- What holds of the four sets, and of a set that is not declared, holds of all. -/
theorem house_cases {P : PermissionSetIdentity → Prop} (hdeclared : ∀ definition ∈ houseSets, P definition.identity)
    (hnone : ∀ a ∉ houseSets.map (·.identity), P a) (a : PermissionSetIdentity) : P a := by
  by_cases ha : a ∈ houseSets.map (·.identity)
  · obtain ⟨definition, hdefinition, rfl⟩ := List.mem_map.mp ha
    exact hdeclared definition hdefinition
  · exact hnone a ha

theorem house_none (ha : a ∉ houseSets.map (·.identity)) : house a = none := by
  apply List.find?_eq_none.mpr
  intro definition hdefinition hsame
  exact ha (List.mem_map.mpr ⟨definition, hdefinition, of_decide_eq_true hsame⟩)

/-- Each set refers to sets that stand before it. -/
theorem house_refers {b : PermissionSetIdentity} (h : Refers house a b) :
    (houseSets.map (·.identity)).idxOf b < (houseSets.map (·.identity)).idxOf a := by
  obtain ⟨definition, hfound, hb⟩ := h
  obtain ⟨hdefinition, rfl⟩ := house_some hfound
  have hbefore : ∀ definition ∈ houseSets, ∀ b ∈ definition.references,
      (houseSets.map (·.identity)).idxOf b < (houseSets.map (·.identity)).idxOf definition.identity := by
    decide +kernel
  exact hbefore definition hdefinition b hb

theorem house_acyclic : Acyclic house where
  finite := (houseSets.map (·.identity)).finite_toSet.subset fun a ⟨_, h⟩ =>
    List.mem_map.mpr ⟨_, house_some h⟩
  no_cycle a h := by
    have hless : ∀ {b}, TransGen (Refers house) a b →
        (houseSets.map (·.identity)).idxOf b < (houseSets.map (·.identity)).idxOf a := by
      intro b hpath
      induction hpath with
      | single hab => exact house_refers hab
      | tail _ hbc ih => exact (house_refers hbc).trans ih
    exact Nat.lt_irrefl _ (hless h)

abbrev assignedHouse : List PermissionSetIdentity := [office.identity, vault.identity]

theorem house_reached (h : Reached house assignedHouse a) : a ∈ houseSets.map (·.identity) := by
  obtain ⟨b, hb, hpath⟩ := h
  induction hpath with
  | refl =>
    revert b
    decide +kernel
  | tail _ hbc _ =>
    rw [← List.idxOf_lt_length_iff]
    exact (house_refers hbc).trans_le List.idxOf_le_length

/-- What the recursion needs of the sets, and comes to. -/
def houseNeed (a : PermissionSetIdentity) : Need :=
  if a = reader.identity then ⟨1, 1, 1⟩
  else if a = clerk.identity then ⟨3, 2, 2⟩
  else if a = office.identity then ⟨5, 4, 3⟩
  else if a = vault.identity then ⟨5, 3, 3⟩
  else ⟨1, 0, 1⟩

def houseLevel (a : PermissionSetIdentity) : PermissionLevel :=
  if a = reader.identity ∨ a = clerk.identity then .direct else if a = office.identity then .indirect else .none

theorem house_need : need house_acyclic = houseNeed := by
  apply solution_unique house_acyclic.wellFounded needStep_local (solve_eq house_acyclic.wellFounded needStep_local)
  apply house_cases
  · decide +kernel
  · intro a ha
    rw [needStep, house_none ha]
    obtain ⟨hreader, hclerk, hoffice, hvault⟩ : a ≠ reader.identity ∧ a ≠ clerk.identity ∧ a ≠ office.identity ∧
        a ≠ vault.identity := by simpa [houseSets] using ha
    rw [houseNeed, if_neg hreader, if_neg hclerk, if_neg hoffice, if_neg hvault]

theorem house_level : level house_acyclic ⟨18, .tableData, .read, {}⟩ = houseLevel := by
  apply solution_unique house_acyclic.wellFounded (levelStep_local _) (level_eq house_acyclic _)
  apply house_cases
  · decide +kernel
  · intro a ha
    rw [levelStep, house_none ha]
    obtain ⟨hreader, hclerk, hoffice, -⟩ : a ≠ reader.identity ∧ a ≠ clerk.identity ∧ a ≠ office.identity ∧
        a ≠ vault.identity := by simpa [houseSets] using ha
    rw [houseLevel, if_neg (not_or.mpr ⟨hreader, hclerk⟩), if_neg hoffice]

theorem house_fits : Fits house_acyclic {} assignedHouse where
  sets l hnodup hreached := by
    have hsub : l ⊆ houseSets.map (·.identity) := fun a ha => house_reached (hreached a ha)
    exact ((List.subperm_of_subset hnodup hsub).length_le).trans (by decide)
  edges := by
    rw [house_need]
    decide +kernel
  entries := by
    rw [house_need]
    decide +kernel
  path := by
    rw [house_need]
    decide +kernel

/-- `OFFICE` may read indirectly, `VAULT` not at all: who is assigned both reads indirectly. -/
theorem resolution_of_house :
    resolvePermission house assignedHouse 18 (.named .tableData) (.named .read) {} = .ok .indirect := by
  have hsound : ∀ a, Reached house assignedHouse a → Sound house a := by
    intro a ha
    obtain ⟨definition, hdefinition, rfl⟩ := List.mem_map.mp (house_reached ha)
    have hvalid : ∀ definition ∈ houseSets, definition.identity.valid = true ∧
        house definition.identity = some definition ∧ ∀ entry ∈ definition.entries, entry.refusal = none := by
      decide +kernel
    obtain ⟨hidentity, hfound, hentries⟩ := hvalid definition hdefinition
    exact ⟨hidentity, definition, hfound, rfl, hentries⟩
  have hnone : ¬ ∃ a ∈ assignedHouse, Filtered house ⟨18, .tableData, .read, {}⟩ a := by
    rintro ⟨a, -, b, -, definition, h, hentry⟩
    have hplain : ∀ definition ∈ houseSets,
        ¬ ∃ entry ∈ definition.granting, filters ⟨18, .tableData, .read, {}⟩ entry = true := by
      decide +kernel
    exact hplain definition (house_some h).1 hentry
  have hlevel : joined (level house_acyclic ⟨18, .tableData, .read, {}⟩) assignedHouse = .indirect := by
    rw [house_level]
    decide +kernel
  rw [← hlevel]
  exact ((resolution_is_composition 18 .tableData .read {} (by decide) ⟨by decide, by decide, by decide, by decide⟩
    house).1 house_acyclic assignedHouse hsound house_fits).2.1 hnone

end Agiru.Permission
