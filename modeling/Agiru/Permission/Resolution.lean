import Agiru.Permission.Composition

/-! The resolver comes to what the composition comes to.

What it remembers is a list built from what is referred to, each set with what it comes
to (`Remembers`). `exec_set_ok` keeps this and gives the meaning of every set that is
returned, cycles or not; `set_returns` shows that it does return where the limits fit. -/
namespace Agiru.Permission
open Layers Relation Procedure

variable {a : PermissionSetIdentity} {e : Effective} {ids : List PermissionSetIdentity}
variable {result : Effective}
variable {ids' : List PermissionSetIdentity} {extensions : List PermissionSetExtensionDef}
  {definition : PermissionSetDef}

/-! ### What is remembered -/

def Resolver.keys (s : Resolver) : List PermissionSetIdentity := s.completed.map Prod.fst

section Memory
variable (selector : Selector) (catalog : PermissionSetCatalog) (assigned : List PermissionSetIdentity)

/-- The values that satisfy the recursive definition. -/
def Solves (value : PermissionSetIdentity → PermissionLevel) : Prop :=
  ∀ a, value a = levelStep catalog selector value a

structure Means (a : PermissionSetIdentity) (e : Effective) : Prop where
  level : ∀ value, Solves selector catalog value → e.level = value a
  filtered : e.filtered = true ↔ Filtered catalog selector a

structure Remembers (s : Resolver) : Prop where
  built : Built (Refers catalog) s.keys
  means : ∀ p ∈ s.completed, Declared catalog p.1 ∧ Means selector catalog p.1 p.2
  counted : s.sets = s.completed.length + s.active.length
  apart : (s.active ++ s.keys).Nodup
  reached : ∀ a ∈ s.active ++ s.keys, Reached catalog assigned a

end Memory

/-- The path is as it was, and nothing is forgotten. -/
structure Grown (s t : Resolver) : Prop where
  active : t.active = s.active
  completed : s.keys ⊆ t.keys

theorem Grown.trans {s t u : Resolver} (h : Grown s t) (h' : Grown t u) : Grown s u :=
  ⟨h'.active.trans h.active, fun _ ha => h'.completed (h.completed ha)⟩

variable {selector : Selector} {catalog : PermissionSetCatalog} {assigned : List PermissionSetIdentity}
  {s t : Resolver}

theorem Remembers.congr (h : Remembers selector catalog assigned s)
    (hcompleted : t.completed = s.completed) (hactive : t.active = s.active) (hsets : t.sets = s.sets) :
    Remembers selector catalog assigned t ∧ Grown s t := by
  have hkeys : t.keys = s.keys := congrArg (List.map Prod.fst) hcompleted
  refine ⟨⟨?_, ?_, ?_, ?_, ?_⟩, hactive, by rw [hkeys]; exact fun _ ha => ha⟩
  · rw [hkeys]
    exact h.built
  · rw [hcompleted]
    exact h.means
  · rw [hcompleted, hactive, hsets]
    exact h.counted
  · rw [hkeys, hactive]
    exact h.apart
  · rw [hkeys, hactive]
    exact h.reached

theorem reached_of_refers {b : PermissionSetIdentity} (h : Reached catalog assigned a)
    (hab : Refers catalog a b) : Reached catalog assigned b := by
  obtain ⟨root, hroot, hpath⟩ := h
  exact ⟨root, hroot, hpath.tail hab⟩

/-! ### What returned is right -/

theorem include_eq (target source : Effective) :
    target.include source = ⟨target.level ⊔ source.level, target.filtered || source.filtered⟩ := by
  rw [Effective.include, combine_eq]

theorem exec_reference_ok {u : PUnit} (h : exec (Resolver.reference selector) s = (.ok u, t)) :
    t = {s with edges := s.edges + 1} := by
  unfold Resolver.reference at h
  rw [exec_bind, exec_get] at h
  dsimp only at h
  split at h
  · cases h
  · exact (congrArg Prod.snd h).symm

theorem grants_eq (entry : PermissionEntry) (result : Effective) (happlies : Resolver.applies selector entry) :
    result.include ⟨Resolver.level selector entry,
        Resolver.level selector entry ≠ .none && entry.securityFiltered⟩ =
      ⟨result.level ⊔ grant selector entry, result.filtered || filters selector entry⟩ := by
  rw [include_eq, grant, if_pos happlies, filters, happlies, Bool.true_and]

theorem exec_entriesInto_ok {entries : List PermissionEntry}
    (h : exec (Resolver.entriesInto selector result entries) s = (.ok e, t)) :
    e = ⟨result.level ⊔ joined (grant selector) entries,
      result.filtered || entries.any (filters selector)⟩ ∧ ∃ n, t = {s with entries := n} := by
  induction entries generalizing result s with
  | nil =>
    cases h
    exact ⟨by simp, _, rfl⟩
  | cons entry rest ih =>
    unfold Resolver.entriesInto at h
    rw [exec_bind, exec_get] at h
    dsimp only at h
    split at h
    · cases h
    · obtain ⟨⟨⟩, u, hu, h⟩ := of_exec_bind h
      cases hu
      cases hrefusal : entry.refusal with
      | some refusal =>
        rw [hrefusal] at h
        cases h
      | none =>
        rw [hrefusal] at h
        dsimp only at h
        by_cases happlies : Resolver.applies selector entry = true
        · rw [if_neg (by simp [happlies]), grants_eq entry result happlies] at h
          obtain ⟨rfl, n, rfl⟩ := ih h
          exact ⟨by rw [joined_cons, sup_assoc, List.any_cons, Bool.or_assoc], n, rfl⟩
        · rw [if_pos (by simpa using happlies)] at h
          obtain ⟨rfl, n, rfl⟩ := ih h
          have hgrant : grant selector entry = ⊥ := if_neg happlies
          have hfilters : filters selector entry = false := by simp [filters, happlies]
          exact ⟨by rw [joined_cons, hgrant, bot_sup_eq, List.any_cons, hfilters, Bool.false_or], n, rfl⟩

section Expand
variable {expand : PermissionSetIdentity → Procedure Refusal Resolver Effective}

variable (selector catalog assigned) in
/-- What the expansion of a set keeps and returns. -/
def Expands (expand : PermissionSetIdentity → Procedure Refusal Resolver Effective) : Prop :=
  ∀ a s e t, Remembers selector catalog assigned s → Reached catalog assigned a →
    exec (expand a) s = (.ok e, t) →
    Remembers selector catalog assigned t ∧ Grown s t ∧ a ∈ t.keys ∧ Means selector catalog a e

variable (selector catalog) in
/-- What is added to a result by entries and sets. -/
structure Adds (entries : List PermissionEntry) (ids : List PermissionSetIdentity)
    (result e : Effective) : Prop where
  level : ∀ value, Solves selector catalog value →
    e.level = result.level ⊔ (joined (grant selector) entries ⊔ joined value ids)
  filtered : e.filtered = true ↔ result.filtered = true ∨
    ((∃ entry ∈ entries, filters selector entry = true) ∨ ∃ a ∈ ids, Filtered catalog selector a)

theorem Adds.append {entries entries' : List PermissionEntry}
    {e' : Effective} (h : Adds selector catalog entries ids result e)
    (h' : Adds selector catalog entries' ids' e e') :
    Adds selector catalog (entries ++ entries') (ids ++ ids') result e' := by
  constructor
  · intro value hvalue
    rw [h'.level value hvalue, h.level value hvalue, joined_append, joined_append]
    ac_rfl
  · rw [h'.filtered, h.filtered]
    simp only [List.mem_append, or_and_right, exists_or]
    rw [or_assoc, or_or_or_comm]

/-- A result of its own, included. -/
theorem Adds.included {entries : List PermissionEntry}
    {source : Effective} (h : Adds selector catalog entries ids {} source) (result : Effective) :
    Adds selector catalog entries ids result (result.include source) := by
  rw [include_eq]
  constructor
  · intro value hvalue
    have hbot : ({} : Effective).level = ⊥ := rfl
    rw [h.level value hvalue, hbot, bot_sup_eq]
  · rw [Bool.or_eq_true, h.filtered]
    simp

variable (catalog) in
theorem adds_entries {entries : List PermissionEntry}
    (h : exec (Resolver.entriesInto selector result entries) s = (.ok e, t)) :
    Adds selector catalog entries [] result e := by
  obtain ⟨rfl, -⟩ := exec_entriesInto_ok h
  exact ⟨fun value _ => by rw [joined_nil, sup_bot_eq], by simp⟩

theorem exec_entries_kept {entries : List PermissionEntry} (hs : Remembers selector catalog assigned s)
    (h : exec (Resolver.entriesInto selector result entries) s = (.ok e, t)) :
    Remembers selector catalog assigned t ∧ Grown s t := by
  obtain ⟨-, n, rfl⟩ := exec_entriesInto_ok h
  exact hs.congr rfl rfl rfl

variable (hexpand : Expands selector catalog assigned expand)
include hexpand

theorem exec_includesInto_ok
    (hs : Remembers selector catalog assigned s) (hids : ∀ a ∈ ids, Reached catalog assigned a)
    (h : exec (Resolver.includesInto expand result ids) s = (.ok e, t)) :
    Remembers selector catalog assigned t ∧ Grown s t ∧ (∀ a ∈ ids, a ∈ t.keys) ∧
      Adds selector catalog [] ids result e := by
  induction ids generalizing result s with
  | nil =>
    cases h
    exact ⟨hs, ⟨rfl, fun _ ha => ha⟩, by simp, ⟨fun _ _ => by simp, by simp⟩⟩
  | cons a rest ih =>
    obtain ⟨ha, hrest⟩ := List.forall_mem_cons.mp hids
    obtain ⟨source, u, hfirst, hlater⟩ := of_exec_bind h
    obtain ⟨hu, hgrown, hkey, hmeans⟩ := hexpand a s source u hs ha hfirst
    obtain ⟨ht, hgrown', hkeys, hadds⟩ := ih hu hrest hlater
    refine ⟨ht, hgrown.trans hgrown', List.forall_mem_cons.mpr ⟨hgrown'.completed hkey, hkeys⟩, ?_⟩
    have hsource : Adds selector catalog [] [a] {} source := by
      constructor
      · intro value hvalue
        have hbot : ({} : Effective).level = ⊥ := rfl
        rw [hmeans.level value hvalue, hbot, joined_nil, joined_cons, joined_nil]
        simp
      · rw [hmeans.filtered]
        simp
    exact (hsource.included result).append hadds

theorem exec_extensionsInto_ok (hs : Remembers selector catalog assigned s)
    (hids : ∀ a ∈ extensions.flatMap (·.included), Reached catalog assigned a)
    (h : exec (Resolver.extensionsInto selector expand result extensions) s = (.ok e, t)) :
    Remembers selector catalog assigned t ∧ Grown s t ∧
      (∀ a ∈ extensions.flatMap (·.included), a ∈ t.keys) ∧
      Adds selector catalog (extensions.flatMap (·.permissions)) (extensions.flatMap (·.included))
        result e := by
  induction extensions generalizing result s with
  | nil =>
    cases h
    exact ⟨hs, ⟨rfl, fun _ ha => ha⟩, by simp, ⟨fun _ _ => by simp, by simp⟩⟩
  | cons extension rest ih =>
    rw [List.flatMap_cons, List.forall_mem_append] at hids
    obtain ⟨⟨⟩, u, hreference, h⟩ := of_exec_bind h
    obtain rfl := exec_reference_ok hreference
    obtain ⟨hu, hgrown⟩ := hs.congr (t := {s with edges := s.edges + 1}) rfl rfl rfl
    obtain ⟨own, v, hown, h⟩ := of_exec_bind h
    obtain ⟨hv, hgrownv⟩ := exec_entries_kept hu hown
    obtain ⟨included, w, hincluded, h⟩ := of_exec_bind h
    obtain ⟨hw, hgrownw, hkeysw, haddsw⟩ := exec_includesInto_ok hexpand hv hids.1 hincluded
    obtain ⟨ht, hgrownt, hkeyst, haddst⟩ := ih hw hids.2 h
    refine ⟨ht, hgrown.trans (hgrownv.trans (hgrownw.trans hgrownt)), ?_, ?_⟩
    · rw [List.flatMap_cons, List.forall_mem_append]
      exact ⟨fun a ha => hgrownt.completed (hkeysw a ha), hkeyst⟩
    · rw [List.flatMap_cons, List.flatMap_cons]
      have hown' := (adds_entries catalog hown).included result
      simpa using (hown'.append (haddsw.included _)).append haddst

theorem exec_compose_ok (hs : Remembers selector catalog assigned s)
    (hids : ∀ a ∈ definition.references, Reached catalog assigned a)
    (h : exec (Resolver.compose selector expand definition) s = (.ok e, t)) :
    Remembers selector catalog assigned t ∧ Grown s t ∧ (∀ a ∈ definition.references, a ∈ t.keys) ∧
      (∀ value, Solves selector catalog value → e.level = definition.level selector value) ∧
      (e.filtered = true ↔ (∃ entry ∈ definition.granting, filters selector entry = true) ∨
        ∃ b ∈ definition.including, Filtered catalog selector b) := by
  unfold PermissionSetDef.references PermissionSetDef.including at hids ⊢
  rw [List.forall_mem_append, List.forall_mem_append] at hids
  obtain ⟨⟨hincluded, hextended⟩, hexcluded⟩ := hids
  obtain ⟨own, u, hown, h⟩ := of_exec_bind h
  obtain ⟨hu, hgrownu⟩ := exec_entries_kept hs hown
  obtain ⟨included, v, hruns, h⟩ := of_exec_bind h
  obtain ⟨hv, hgrownv, hkeysv, haddsv⟩ := exec_includesInto_ok hexpand hu hincluded hruns
  obtain ⟨result, w, hruns, h⟩ := of_exec_bind h
  obtain ⟨hw, hgrownw, hkeysw, haddsw⟩ := exec_extensionsInto_ok hexpand hv hextended hruns
  obtain ⟨excluded, x, hruns, h⟩ := of_exec_bind h
  obtain ⟨hx, hgrownx, hkeysx, haddsx⟩ := exec_includesInto_ok hexpand hw hexcluded hruns
  obtain ⟨entries, y, hentries, h⟩ := of_exec_bind h
  obtain ⟨hy, hgrowny⟩ := exec_entries_kept hx hentries
  have hadds := ((adds_entries catalog hown).append (haddsv.included _)).append haddsw
  have hremoved := adds_entries catalog hentries
  cases h
  have hwt := hgrownx.trans hgrowny
  refine ⟨hy, hgrownu.trans (hgrownv.trans (hgrownw.trans hwt)), ?_, ?_, ?_⟩
  · rw [List.forall_mem_append, List.forall_mem_append]
    exact ⟨⟨fun a ha => hwt.completed (hgrownw.completed (hkeysv a ha)),
      fun a ha => hwt.completed (hkeysw a ha)⟩, fun a ha => hgrowny.completed (hkeysx a ha)⟩
  · intro value hvalue
    have hbot : ({} : Effective).level = ⊥ := rfl
    dsimp only
    rw [hadds.level value hvalue, haddsx.level value hvalue, hremoved.level value hvalue,
      PermissionSetDef.level, PermissionSetDef.granting, PermissionSetDef.including, hbot]
    simp
  · dsimp only
    rw [hadds.filtered, PermissionSetDef.granting]
    simp

end Expand

theorem mem_keys_of_lookup (h : s.completed.lookup a = some e) : (a, e) ∈ s.completed := by
  obtain ⟨l₁, l₂, hsplit, -⟩ := List.lookup_eq_some_iff.mp h
  simp [hsplit]

theorem not_mem_keys_of_lookup (h : s.completed.lookup a = none) : a ∉ s.keys := by
  intro ha
  obtain ⟨p, hp, rfl⟩ := List.mem_map.mp ha
  simpa using List.lookup_eq_none_iff.mp h p hp

/-- The path goes on to a set that is not yet known. -/
theorem Remembers.push (hs : Remembers selector catalog assigned s)
    (hactive : a ∉ s.active) (hkey : a ∉ s.keys) (ha : Reached catalog assigned a) :
    Remembers selector catalog assigned {s with active := a :: s.active, sets := s.sets + 1} where
  built := hs.built
  means := hs.means
  counted := by
    have hcounted := hs.counted
    simp only [List.length_cons]
    omega
  apart := List.nodup_cons.mpr ⟨by simpa using ⟨hactive, hkey⟩, hs.apart⟩
  reached := List.forall_mem_cons.mpr ⟨ha, hs.reached⟩

/-- The last set of the path is finished once all it refers to is. -/
theorem Remembers.pop (hs : Remembers selector catalog assigned s)
    {active : List PermissionSetIdentity} (hactive : s.active = a :: active)
    (hdeclared : Declared catalog a) (hrefers : ∀ b, Refers catalog a b → b ∈ s.keys)
    (hmeans : Means selector catalog a e) :
    Remembers selector catalog assigned
      {s with active := s.active.tail, completed := (a, e) :: s.completed} := by
  have hapart := hs.apart
  have hreached := hs.reached
  have hcounted := hs.counted
  rw [hactive] at hapart hreached hcounted
  have hnew : a ∉ active ++ s.keys := (List.nodup_cons.mp hapart).1
  have hperm : (active ++ a :: s.keys).Perm (a :: active ++ s.keys) := List.perm_middle
  refine ⟨.cons (fun ha => hnew (List.mem_append_right _ ha)) hrefers hs.built,
    List.forall_mem_cons.mpr ⟨⟨hdeclared, hmeans⟩, hs.means⟩, ?_, ?_, ?_⟩
  · rw [hactive]
    simp only [List.length_cons, List.tail_cons] at hcounted ⊢
    omega
  · rw [hactive]
    exact hperm.nodup_iff.mpr hapart
  · rw [hactive]
    exact fun b hb => hreached b (hperm.mem_iff.mp hb)

/-- Whatever the room, what a set returned is what it means. -/
theorem expands_set (room : Nat) :
    Expands selector catalog assigned (Resolver.set selector catalog room) := by
  induction room with
  | zero =>
    intro a s e t _ _ h
    unfold Resolver.set at h
    obtain ⟨⟨⟩, u, -, h⟩ := of_exec_bind h
    dsimp only at h
    split at h <;> cases h
  | succ room ih =>
    intro a s e t hs ha h
    unfold Resolver.set at h
    obtain ⟨⟨⟩, u, hreference, h⟩ := of_exec_bind h
    obtain rfl := exec_reference_ok hreference
    obtain ⟨hu, hgrown⟩ := hs.congr (t := {s with edges := s.edges + 1}) rfl rfl rfl
    dsimp only at h
    split at h
    · cases h
    rw [exec_bind, exec_get] at h
    dsimp only at h
    split at h
    · cases h
    next hactive =>
    cases hlookup : s.completed.lookup a with
    | some effective =>
      rw [hlookup] at h
      cases h
      have hmem := mem_keys_of_lookup hlookup
      exact ⟨hu, hgrown, List.mem_map.mpr ⟨_, hmem, rfl⟩, (hs.means _ hmem).2⟩
    | none =>
      rw [hlookup] at h
      dsimp only at h
      split at h
      · cases h
      obtain ⟨⟨⟩, v, hset, h⟩ := of_exec_bind h
      cases hset
      cases hcatalog : catalog a with
      | none =>
        rw [hcatalog] at h
        cases h
      | some definition =>
        rw [hcatalog] at h
        dsimp only at h
        split at h
        · cases h
        next hidentity =>
        obtain ⟨⟨⟩, w, hpush, h⟩ := of_exec_bind h
        cases hpush
        obtain ⟨result, x, hcompose, h⟩ := of_exec_bind h
        have hpushed := hu.push hactive (not_mem_keys_of_lookup hlookup) ha
        have hrefers : ∀ b ∈ definition.references, Reached catalog assigned b := fun b hb =>
          reached_of_refers ha ⟨definition, hcatalog, hb⟩
        obtain ⟨hx, hgrownx, hkeys, hlevel, hfiltered⟩ := exec_compose_ok ih hpushed hrefers hcompose
        obtain ⟨⟨⟩, y, hpop, h⟩ := of_exec_bind h
        cases hpop
        cases h
        have hmeans : Means selector catalog a e := by
          refine ⟨fun value hvalue => ?_, ?_⟩
          · rw [hlevel value hvalue, hvalue a, levelStep, hcatalog]
          · rw [hfiltered, filtered_iff hcatalog]
        refine ⟨hx.pop hgrownx.active ⟨definition, hcatalog, not_not.mp hidentity⟩ ?_ hmeans,
          ⟨?_, fun b hb => List.mem_cons_of_mem _ (hgrownx.completed hb)⟩, List.mem_cons_self, hmeans⟩
        · rintro b ⟨found, hfound, hb⟩
          obtain rfl := Option.some.inj (hcatalog.symm.trans hfound)
          exact hkeys b hb
        · exact congrArg List.tail hgrownx.active

/-! ### What fits returns -/

variable (selector) in
/-- Limits that leave so many references and entries. -/
structure Room (s : Resolver) (references entries : Nat) : Prop where
  references : s.edges + references ≤ selector.limits.edges
  entries : s.entries + entries ≤ selector.limits.entries

/-- A procedure that returns, having used no more than that. -/
def Returns {α : Type} (p : Procedure Refusal Resolver α) (s : Resolver) (references entries : Nat) :
    Prop :=
  ∃ a t, exec p s = (.ok a, t) ∧ t.edges ≤ s.edges + references ∧ t.entries ≤ s.entries + entries

theorem Room.left {n m n' m' : Nat} (h : Room selector s (n + n') (m + m')) : Room selector s n m :=
  ⟨by have := h.references; omega, by have := h.entries; omega⟩

theorem Room.right {n m n' m' : Nat} (h : Room selector s (n + n') (m + m'))
    (hedges : t.edges ≤ s.edges + n) (hentries : t.entries ≤ s.entries + m) :
    Room selector t n' m' :=
  ⟨by have := h.references; omega, by have := h.entries; omega⟩

theorem Returns.bind {α β : Type} {p : Procedure Refusal Resolver α}
    {f : α → Procedure Refusal Resolver β} {n m n' m' : Nat} (hp : Returns p s n m)
    (hf : ∀ a t, exec p s = (.ok a, t) → t.edges ≤ s.edges + n → t.entries ≤ s.entries + m →
      Returns (f a) t n' m') : Returns (p >>= f) s (n + n') (m + m') := by
  obtain ⟨a, t, hexec, hedges, hentries⟩ := hp
  obtain ⟨b, u, hrest, hedges', hentries'⟩ := hf a t hexec hedges hentries
  exact ⟨b, u, by rw [exec_bind_ok hexec, hrest], by omega, by omega⟩

theorem Returns.pure {α : Type} (a : α) : Returns (pure a) s 0 0 :=
  ⟨a, s, rfl, Nat.le_refl _, Nat.le_refl _⟩

theorem reference_returns (h : Room selector s 1 0) : Returns (Resolver.reference selector) s 1 0 := by
  have hne : s.edges ≠ selector.limits.edges := by
    have := h.references
    omega
  refine ⟨⟨⟩, {s with edges := s.edges + 1}, ?_, Nat.le_refl _, Nat.le_refl _⟩
  unfold Resolver.reference
  rw [exec_bind, exec_get]
  dsimp only
  rw [if_neg hne]
  rfl

theorem entriesInto_returns {entries : List PermissionEntry}
    (hvalid : ∀ entry ∈ entries, entry.refusal = none) (h : Room selector s 0 entries.length) :
    Returns (Resolver.entriesInto selector result entries) s 0 entries.length := by
  induction entries generalizing result s with
  | nil => exact .pure result
  | cons entry rest ih =>
    obtain ⟨hentry, hrest⟩ := List.forall_mem_cons.mp hvalid
    have hroom := h.entries
    rw [List.length_cons] at hroom
    have hne : s.entries ≠ selector.limits.entries := by omega
    have hlater : Room selector {s with entries := s.entries + 1} 0 rest.length :=
      ⟨h.references, by dsimp only; omega⟩
    have hnext : ∀ result, Returns (Resolver.entriesInto selector result rest)
        {s with entries := s.entries + 1} 0 rest.length := fun result => ih hrest hlater
    obtain ⟨e, t, hexec, hedges, hentries⟩ : Returns
        (if !Resolver.applies selector entry then Resolver.entriesInto selector result rest
          else Resolver.entriesInto selector (result.include ⟨Resolver.level selector entry,
            Resolver.level selector entry ≠ .none && entry.securityFiltered⟩) rest)
        {s with entries := s.entries + 1} 0 rest.length := by
      split
      · exact hnext _
      · exact hnext _
    refine ⟨e, t, ?_, hedges, by rw [List.length_cons]; dsimp only at hentries; omega⟩
    unfold Resolver.entriesInto
    rw [exec_bind, exec_get]
    dsimp only
    rw [if_neg hne, exec_bind, exec_set, hentry]
    exact hexec

section Returns
variable {expand : PermissionSetIdentity → Procedure Refusal Resolver Effective}
  (hexpand : Expands selector catalog assigned expand) {references entries : PermissionSetIdentity → Nat}
  {active : List PermissionSetIdentity}

variable (selector catalog assigned expand references entries active) in
/-- The expansion of sets under a path returns. -/
def Expanding (ids : List PermissionSetIdentity) : Prop :=
  ∀ a ∈ ids, Reached catalog assigned a ∧ ∀ s, Remembers selector catalog assigned s →
    s.active = active → Room selector s (references a) (entries a) →
    Returns (expand a) s (references a) (entries a)

theorem Expanding.reached (h : Expanding selector catalog assigned expand references entries active ids) :
    ∀ a ∈ ids, Reached catalog assigned a := fun a ha => (h a ha).1

theorem Expanding.append (h : Expanding selector catalog assigned expand references entries active (ids ++ ids')) :
    Expanding selector catalog assigned expand references entries active ids ∧
      Expanding selector catalog assigned expand references entries active ids' :=
  List.forall_mem_append.mp h

include hexpand

theorem includesInto_returns (hids : Expanding selector catalog assigned expand references entries active ids)
    (hs : Remembers selector catalog assigned s) (hactive : s.active = active)
    (hroom : Room selector s (ids.map references).sum (ids.map entries).sum) :
    Returns (Resolver.includesInto expand result ids) s (ids.map references).sum
      (ids.map entries).sum := by
  induction ids generalizing result s with
  | nil => exact .pure result
  | cons a rest ih =>
    obtain ⟨⟨ha, hreturns⟩, hrest⟩ := List.forall_mem_cons.mp hids
    rw [List.map_cons, List.map_cons, List.sum_cons, List.sum_cons] at hroom ⊢
    refine (hreturns s hs hactive hroom.left).bind fun source t hexec hedges hentries => ?_
    obtain ⟨ht, hgrown, -⟩ := hexpand a s source t hs ha hexec
    exact ih hrest ht (hgrown.active.trans hactive) (hroom.right hedges hentries)

theorem extensionsInto_returns
    (hids : Expanding selector catalog assigned expand references entries active
      (extensions.flatMap (·.included)))
    (hvalid : ∀ entry ∈ extensions.flatMap (·.permissions), entry.refusal = none)
    (hs : Remembers selector catalog assigned s) (hactive : s.active = active)
    (hroom : Room selector s
      (extensions.length + ((extensions.flatMap (·.included)).map references).sum)
      ((extensions.flatMap (·.permissions)).length +
        ((extensions.flatMap (·.included)).map entries).sum)) :
    Returns (Resolver.extensionsInto selector expand result extensions) s
      (extensions.length + ((extensions.flatMap (·.included)).map references).sum)
      ((extensions.flatMap (·.permissions)).length +
        ((extensions.flatMap (·.included)).map entries).sum) := by
  induction extensions generalizing result s with
  | nil => exact .pure result
  | cons extension rest ih =>
    rw [List.flatMap_cons] at hids
    rw [List.flatMap_cons, List.forall_mem_append] at hvalid
    obtain ⟨hown, hlater⟩ := hids.append
    have hsplit : ∀ f : PermissionSetIdentity → Nat,
        (((extension :: rest).flatMap (·.included)).map f).sum =
          (extension.included.map f).sum + ((rest.flatMap (·.included)).map f).sum := fun f => by
      rw [List.flatMap_cons, List.map_append, List.sum_append]
    have hreferences : (extension :: rest).length +
        (((extension :: rest).flatMap (·.included)).map references).sum =
        1 + (0 + ((extension.included.map references).sum +
          (rest.length + ((rest.flatMap (·.included)).map references).sum))) := by
      rw [hsplit, List.length_cons]
      omega
    have hentries : ((extension :: rest).flatMap (·.permissions)).length +
        (((extension :: rest).flatMap (·.included)).map entries).sum =
        0 + (extension.permissions.length + ((extension.included.map entries).sum +
          ((rest.flatMap (·.permissions)).length + ((rest.flatMap (·.included)).map entries).sum))) := by
      rw [hsplit, List.flatMap_cons, List.length_append]
      omega
    rw [hreferences, hentries] at hroom ⊢
    refine (reference_returns hroom.left).bind fun _ t hexec hedges hentries => ?_
    obtain rfl := exec_reference_ok hexec
    have ht := (hs.congr (t := {s with edges := s.edges + 1}) rfl rfl rfl).1
    replace hroom := hroom.right hedges hentries
    refine (entriesInto_returns hvalid.1 hroom.left).bind fun own u hexec hedges hentries => ?_
    obtain ⟨hu, hgrownu⟩ := exec_entries_kept ht hexec
    replace hroom := hroom.right hedges hentries
    have hactiveu : u.active = active := hgrownu.active.trans hactive
    refine (includesInto_returns hexpand hown hu hactiveu hroom.left).bind
      fun included v hexec hedges hentries => ?_
    obtain ⟨hv, hgrownv, -⟩ := exec_includesInto_ok hexpand hu hown.reached hexec
    exact ih hlater hvalid.2 hv (hgrownv.active.trans hactiveu) (hroom.right hedges hentries)

theorem compose_returns
    (hids : Expanding selector catalog assigned expand references entries active definition.references)
    (hvalid : ∀ entry ∈ definition.entries, entry.refusal = none)
    (hs : Remembers selector catalog assigned s) (hactive : s.active = active)
    (hroom : Room selector s
      (definition.extensions.length + (definition.references.map references).sum)
      (definition.entries.length + (definition.references.map entries).sum)) :
    Returns (Resolver.compose selector expand definition) s
      (definition.extensions.length + (definition.references.map references).sum)
      (definition.entries.length + (definition.references.map entries).sum) := by
  have hsplit : ∀ f : PermissionSetIdentity → Nat, (definition.references.map f).sum =
      (definition.included.map f).sum + ((definition.extensions.flatMap (·.included)).map f).sum +
        (definition.excluded.map f).sum := fun f => by
    simp only [PermissionSetDef.references, PermissionSetDef.including, List.map_append, List.sum_append]
  have hreferences : definition.extensions.length + (definition.references.map references).sum =
      0 + ((definition.included.map references).sum + ((definition.extensions.length +
        ((definition.extensions.flatMap (·.included)).map references).sum) +
          ((definition.excluded.map references).sum + (0 + 0)))) := by
    rw [hsplit]
    omega
  have hentries : definition.entries.length + (definition.references.map entries).sum =
      definition.permissions.length + ((definition.included.map entries).sum +
        (((definition.extensions.flatMap (·.permissions)).length +
          ((definition.extensions.flatMap (·.included)).map entries).sum) +
          ((definition.excluded.map entries).sum + (definition.excludedPermissions.length + 0)))) := by
    rw [hsplit, PermissionSetDef.entries, PermissionSetDef.granting, List.length_append, List.length_append]
    omega
  rw [hreferences, hentries] at hroom ⊢
  simp only [PermissionSetDef.entries, PermissionSetDef.granting, List.forall_mem_append] at hvalid
  obtain ⟨⟨hpermissions, hextended⟩, hremoved⟩ := hvalid
  obtain ⟨hadded, hexcluded⟩ := hids.append
  obtain ⟨hincluded, hextensions⟩ := hadded.append
  refine (entriesInto_returns hpermissions hroom.left).bind fun own t hexec hedges hentries => ?_
  obtain ⟨ht, hgrownt⟩ := exec_entries_kept hs hexec
  have hactivet : t.active = active := hgrownt.active.trans hactive
  replace hroom := hroom.right hedges hentries
  refine (includesInto_returns hexpand hincluded ht hactivet hroom.left).bind
    fun included u hexec hedges hentries => ?_
  obtain ⟨hu, hgrownu, -⟩ := exec_includesInto_ok hexpand ht hincluded.reached hexec
  have hactiveu : u.active = active := hgrownu.active.trans hactivet
  replace hroom := hroom.right hedges hentries
  refine (extensionsInto_returns hexpand hextensions hextended hu hactiveu hroom.left).bind
    fun result v hexec hedges hentries => ?_
  obtain ⟨hv, hgrownv, -⟩ := exec_extensionsInto_ok hexpand hu hextensions.reached hexec
  have hactivev : v.active = active := hgrownv.active.trans hactiveu
  replace hroom := hroom.right hedges hentries
  refine (includesInto_returns hexpand hexcluded hv hactivev hroom.left).bind
    fun excluded w hexec hedges hentries => ?_
  refine (entriesInto_returns hremoved (hroom.right hedges hentries).left).bind fun _ _ _ _ _ => ?_
  exact .pure _

end Returns

/-- A set returns where its need fits, the path to it comes from sets that refer to it, and
all that is reached is sound. -/
theorem set_returns (hacyclic : Acyclic catalog) (hsound : ∀ a, Reached catalog assigned a → Sound catalog a)
    (hfits : Fits hacyclic selector.limits assigned) {room : Nat}
    (ha : Reached catalog assigned a) (hpath : (need hacyclic a).path ≤ room)
    (hs : Remembers selector catalog assigned s)
    (habove : ∀ b ∈ s.active, TransGen (Refers catalog) b a)
    (hroom : Room selector s (need hacyclic a).references (need hacyclic a).entries) :
    Returns (Resolver.set selector catalog room a) s (need hacyclic a).references
      (need hacyclic a).entries := by
  induction room generalizing a s with
  | zero =>
    obtain ⟨-, definition, hcatalog, -⟩ := hsound a ha
    rw [need_eq hacyclic hcatalog] at hpath
    dsimp only at hpath
    omega
  | succ room ih =>
    obtain ⟨hvalid, definition, hcatalog, hidentity, hentries⟩ := hsound a ha
    rw [need_eq hacyclic hcatalog] at hpath hroom ⊢
    dsimp only at hpath hroom ⊢
    rw [Nat.add_assoc] at hroom ⊢
    rw [← Nat.zero_add (definition.entries.length + _)] at hroom ⊢
    unfold Resolver.set
    refine (reference_returns hroom.left).bind fun _ t hexec hedges hentriest => ?_
    obtain rfl := exec_reference_ok hexec
    obtain ⟨ht, -⟩ := hs.congr (t := {s with edges := s.edges + 1}) rfl rfl rfl
    replace hroom := hroom.right hedges hentriest
    have hactive : a ∉ s.active := fun hmem => hacyclic.no_cycle a (habove a hmem)
    dsimp only
    rw [if_neg (by simp [hvalid])]
    cases hlookup : s.completed.lookup a with
    | some effective =>
      refine ⟨effective, {s with edges := s.edges + 1}, ?_, Nat.le_add_right _ _, Nat.le_add_right _ _⟩
      rw [exec_bind, exec_get]
      dsimp only
      rw [if_neg hactive, hlookup]
      rfl
    | none =>
      have hkey := not_mem_keys_of_lookup hlookup
      have hpushed := ht.push hactive hkey ha
      have hsets : s.sets ≠ selector.limits.sets := by
        have hcount := hfits.sets _ hpushed.apart hpushed.reached
        have hcounted := hs.counted
        simp only [Resolver.keys, List.length_append, List.length_cons, List.length_map] at hcount
        omega
      have hexpanding : Expanding selector catalog assigned (Resolver.set selector catalog room)
          (fun b => (need hacyclic b).references) (fun b => (need hacyclic b).entries) (a :: s.active)
          definition.references := by
        intro b hb
        have hab : Refers catalog a b := ⟨definition, hcatalog, hb⟩
        refine ⟨reached_of_refers ha hab, fun u hu hactiveu hroomu => ih (reached_of_refers ha hab) ?_ hu ?_ hroomu⟩
        · have hle := joined_le_iff.mp (Nat.le_refl (joined (fun b => (need hacyclic b).path)
            definition.references)) b hb
          omega
        · rw [hactiveu]
          rintro c (_ | ⟨_, hc⟩)
          · exact .single hab
          · exact (habove c hc).tail hab
      obtain ⟨result, u, hcompose, hedgesu, hentriesu⟩ := compose_returns (expands_set room) hexpanding
        hentries hpushed rfl ⟨hroom.references, hroom.entries⟩
      refine ⟨result, {u with
        active := u.active.tail
        completed := (a, result) :: u.completed}, ?_, hedgesu, hentriesu⟩
      rw [exec_bind, exec_get]
      dsimp only
      rw [if_neg hactive, hlookup]
      dsimp only
      rw [if_neg hsets, exec_bind, exec_set, hcatalog]
      dsimp only
      rw [if_neg (not_not.mpr hidentity), exec_bind, exec_modify]
      dsimp only
      rw [exec_bind, hcompose]
      rfl

end Agiru.Permission
