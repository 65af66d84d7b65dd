import Agiru.Permission.Policy

/-! Two resolutions of the same sets.

A resolution looks only at the sets that it reaches. So the level that one comes to does not
depend on what else a catalogue holds, and two resolutions of catalogues that say the same, in
whatever order and under whatever limits, come to one level if both come to one. -/
namespace Agiru.Permission
open Layers Relation Procedure
open Resolver

variable {selector : Selector} {catalog catalog' : PermissionSetCatalog}
  {assigned assigned' : List PermissionSetIdentity}
variable {kind : Enumerated PermissionObject} {operation : Enumerated PermissionOperation}
  {limits : PermissionSetLimits}

section Expand
variable {expand expand' : PermissionSetIdentity → Procedure Refusal Resolver Effective}

theorem includesInto_congr {result : Effective} {ids : List PermissionSetIdentity}
    (h : ∀ a ∈ ids, expand a = expand' a) :
    includesInto expand result ids = includesInto expand' result ids := by
  induction ids generalizing result with
  | nil => rfl
  | cons a rest ih =>
    obtain ⟨ha, hrest⟩ := List.forall_mem_cons.mp h
    unfold includesInto
    rw [ha]
    exact bind_congr fun _ => ih hrest

theorem extensionsInto_congr {result : Effective} {extensions : List PermissionSetExtensionDef}
    (h : ∀ a ∈ extensions.flatMap (·.included), expand a = expand' a) :
    extensionsInto selector expand result extensions =
      extensionsInto selector expand' result extensions := by
  induction extensions generalizing result with
  | nil => rfl
  | cons extension rest ih =>
    rw [List.flatMap_cons] at h
    obtain ⟨hhere, hrest⟩ := List.forall_mem_append.mp h
    unfold extensionsInto
    refine bind_congr fun _ => bind_congr fun entries => ?_
    rw [includes, includes, includesInto_congr hhere]
    exact bind_congr fun _ => ih hrest

/-- What a declaration comes to depends on the sets that it refers to. -/
theorem compose_congr {definition : PermissionSetDef}
    (h : ∀ a ∈ definition.references, expand a = expand' a) :
    compose selector expand definition = compose selector expand' definition := by
  obtain ⟨hincluding, hexcluded⟩ := List.forall_mem_append.mp h
  obtain ⟨hincluded, hextensions⟩ := List.forall_mem_append.mp hincluding
  unfold compose includes
  refine bind_congr fun own => ?_
  rw [includesInto_congr hincluded]
  refine bind_congr fun included => ?_
  rw [extensionsInto_congr hextensions]
  refine bind_congr fun result => ?_
  rw [includesInto_congr hexcluded]

end Expand

/-- A set comes to the same where the catalogues agree on all that it leads to. -/
theorem set_congr {among : PermissionSetIdentity → Prop}
    (hclosed : ∀ a b, among a → Refers catalog a b → among b)
    (hsame : ∀ a, among a → catalog a = catalog' a) (room : Nat) {a : PermissionSetIdentity}
    (ha : among a) : Resolver.set selector catalog room a = Resolver.set selector catalog' room a := by
  induction room generalizing a with
  | zero => rfl
  | succ room ih =>
    unfold Resolver.set
    rw [← hsame a ha]
    refine bind_congr fun _ => ?_
    cases hfound : catalog a with
    | none => rfl
    | some definition =>
      have hcompose : compose selector (Resolver.set selector catalog room) definition =
          compose selector (Resolver.set selector catalog' room) definition :=
        compose_congr fun b hb => ih (hclosed a b ha ⟨definition, hfound, hb⟩)
      simp only [hcompose]

section Within
open Classical

variable (catalog assigned) in
/-- The catalogue of what is reached. -/
noncomputable def reachedCatalog : PermissionSetCatalog := fun a =>
  if Reached catalog assigned a then catalog a else none

theorem reachedCatalog_refers {a b : PermissionSetIdentity}
    (h : Refers (reachedCatalog catalog assigned) a b) : Reached catalog assigned a ∧ Refers catalog a b := by
  obtain ⟨definition, hfound, hb⟩ := h
  unfold reachedCatalog at hfound
  split at hfound
  · next hreached => exact ⟨hreached, definition, hfound, hb⟩
  · cases hfound

theorem resolve_reachedCatalog (selector : Selector) :
    resolve selector (reachedCatalog catalog assigned) assigned =
      resolve selector catalog assigned := by
  have hset : ∀ a ∈ assigned, Resolver.set selector (reachedCatalog catalog assigned) selector.limits.depth a =
      Resolver.set selector catalog selector.limits.depth a := by
    intro a ha
    refine (set_congr (fun _ _ => reached_of_refers) (fun b hb => ?_) _ (reached_assigned a ha)).symm
    exact (if_pos hb).symm
  unfold resolve
  rw [includes, includes, includesInto_congr hset]

/-- What resolved reached finitely many sets, without a cycle. -/
theorem acyclic_of_resolved {level : PermissionLevel}
    (h : (exec (resolve selector catalog assigned) {}).1 = .ok level) :
    Acyclic (reachedCatalog catalog assigned) := by
  unfold resolve at h
  rw [exec_bind] at h
  rcases hrun : exec (includes (Resolver.set selector catalog selector.limits.depth) assigned) {}
    with ⟨e | e, t⟩
  · rw [hrun] at h
    cases h
  · have hdeclared := fun a ha => declared_of_exec (a := a) hrun ha
    obtain ⟨ht, hkeys, -⟩ := exec_assigned_ok hrun
    refine ⟨t.keys.finite_toSet.subset ?_, fun a hcycle => ?_⟩
    · rintro a ⟨definition, hfound⟩
      have hreached : Reached catalog assigned a := by
        by_contra hnot
        rw [reachedCatalog, if_neg hnot] at hfound
        cases hfound
      obtain ⟨root, hroot, hpath⟩ := hreached
      exact ht.built.closed_trans (hkeys root hroot) hpath
    · obtain ⟨b, hab, -⟩ := TransGen.head'_iff.mp hcycle
      refine (hdeclared a (reachedCatalog_refers hab).1).2 ?_
      exact TransGen.mono (fun _ _ hstep => (reachedCatalog_refers hstep).2) a a hcycle

theorem SameCatalog.reachedCatalog (hsame : SameCatalog catalog catalog')
    (hassigned : SameMembers assigned assigned') :
    SameCatalog (reachedCatalog catalog assigned) (Permission.reachedCatalog catalog' assigned') := by
  intro a
  have hreached := hsame.reached hassigned (a := a)
  unfold Permission.reachedCatalog
  by_cases ha : Reached catalog assigned a
  · rw [if_pos ha, if_pos (hreached.mp ha)]
    exact hsame a
  · rw [if_neg ha, if_neg (mt hreached.mpr ha)]
    exact .none

/-- What a resolution comes to is the join of the levels of the assigned sets. -/
theorem level_of_resolved {level : PermissionLevel}
    (h : (exec (resolve selector catalog assigned) {}).1 = .ok level) :
    level = joined (Permission.level (acyclic_of_resolved h) selector) assigned := by
  have hreached := h
  rw [← resolve_reachedCatalog] at hreached
  rcases resolve_cases selector (Permission.reachedCatalog catalog assigned) assigned with
    ⟨refusal, -, hrefused⟩ | ⟨-, ⟨-, hraised⟩ | ⟨-, found, hok, hvalue⟩⟩
  · rw [hreached] at hrefused
    cases hrefused
  · rw [hreached] at hraised
    cases hraised
  · rw [hreached] at hok
    obtain rfl := Except.ok.inj hok
    exact hvalue _ (level_eq (acyclic_of_resolved h) selector)

end Within

/-- A permission that resolved had a selector. -/
theorem selector_of_resolved {object : Int} {level : PermissionLevel}
    (h : resolvePermission catalog assigned object kind operation limits = .ok level) :
    ∃ kind' operation', kind = .named kind' ∧ operation = .named operation' ∧
      (exec (resolve ⟨object, kind', operation', limits⟩ catalog assigned) {}).1 = .ok level := by
  unfold resolvePermission at h
  split at h
  · next kind' operation' =>
    split at h
    · cases h
    · exact ⟨kind', operation', rfl, rfl, h⟩
  · cases h

/-- Two resolutions of the same sets come to one level, in whatever order and under whatever
limits. -/
theorem resolved_unique {object : Int} {limits' : PermissionSetLimits}
    {level level' : PermissionLevel} (hsame : SameCatalog catalog catalog')
    (hassigned : SameMembers assigned assigned')
    (h : resolvePermission catalog assigned object kind operation limits = .ok level)
    (h' : resolvePermission catalog' assigned' object kind operation limits' = .ok level') :
    level = level' := by
  obtain ⟨kind, operation, rfl, rfl, hrun⟩ := selector_of_resolved h
  obtain ⟨kind', operation', hkind, hoperation, hrun'⟩ := selector_of_resolved h'
  obtain rfl := Enumerated.named.inj hkind
  obtain rfl := Enumerated.named.inj hoperation
  rw [level_of_resolved hrun, level_of_resolved hrun', joined_congr_mem hassigned]
  have hlevels := (hsame.reachedCatalog hassigned).level (acyclic_of_resolved hrun)
    (acyclic_of_resolved hrun') ⟨object, kind, operation, limits⟩
  rw [hlevels]
  -- The limits are no part of a level.
  rfl

end Agiru.Permission
