import Agiru.Extension.Landing

/-! Page extensions land where they say.

An operation that does not find its anchor waits among the controls of the page, under the anchor's name; while no
other operation takes it, or a control in it, for its own anchor, every operation that can be placed is, in
whatever order they come. -/
namespace Agiru.Extension

/-- A page and the operations of its extensions. -/
structure Extends (base operations : List Control) : Prop where
  page : ∀ control ∈ base, ¬ IsAnOperation control
  operation : ∀ operation ∈ operations, IsAnOperation operation
  control : ∀ operation ∈ operations, ∀ control ∈ introduced operation, ¬ IsAnOperation control
  distinct : (names base ++ operations.flatMap fun operation => names (introduced operation)).Nodup

/-- The anchor of an operation is a control of the page, or one that an operation brings whose own anchor is one.
-/
inductive Placeable (base operations : List Control) : Control → Prop
  | page {operation : Control} (h : operation.key ∈ names base) : Placeable base operations operation
  | brought {operation other : Control} (hother : other ∈ operations) (h : Placeable base operations other)
    (hkey : operation.key ∈ names (introduced other)) : Placeable base operations operation

/-- No operation names an anchor that is not present when it is taken, and that an operation before it names or
brings which waits. -/
def Clear : List Key → List Key → List Control → Prop
  | _, _, [] => True
  | present, waiting, operation :: operations =>
    if operation.key ∈ present then Clear (present ++ names (introduced operation)) waiting operations
    else operation.key ∉ waiting ∧ Clear present (waiting ++ operation.names) operations

instance decidableClear : ∀ present waiting operations, Decidable (Clear present waiting operations)
  | _, _, [] => inferInstanceAs (Decidable True)
  | present, waiting, operation :: operations =>
    have := decidableClear (present ++ names (introduced operation)) waiting operations
    have := decidableClear present (waiting ++ operation.names) operations
    inferInstanceAs (Decidable (ite _ _ _))

/-! ### A page and what waits -/

/-- The operations that are placed, and those that are not or not yet. -/
structure State (base operations placed waiting controls : List Control) : Prop where
  perm : (placed ++ waiting).Perm operations
  stands : Stands base placed controls
  placeable : ∀ operation ∈ placed, Placeable base operations operation
  plain : ∀ control ∈ controls, ¬ IsAnOperation control

theorem spliceAt_append (operation anchor : Control) (rest more : List Control) :
    spliceAt operation anchor (rest ++ more) = spliceAt operation anchor rest ++ more := by
  unfold spliceAt
  cases whereOf operation <;> simp

/-- What waits behind the controls of a page does not matter where an anchor is found in these. -/
theorem splice_append {operation : Control} {f f' : List Control} (h : splice operation f = some f')
    (more : List Control) : splice operation (f ++ more) = some (f' ++ more) := by
  induction f generalizing f' with
  | nil => cases h
  | cons control f ih =>
    rw [splice] at h
    rw [List.cons_append, splice]
    split at h
    · next hkey =>
      obtain rfl := Option.some.inj h
      rw [if_pos hkey, spliceAt_append]
    · next hkey =>
      rw [if_neg hkey]
      split at h
      · next spliced hspliced =>
        obtain rfl := Option.some.inj h
        rfl
      · obtain ⟨rest, hrest, rfl⟩ := Option.map_eq_some_iff.mp h
        rw [ih hrest]
        rfl

theorem spliceAt_plain {operation anchor : Control} {rest : List Control}
    (hintroduced : ∀ control ∈ introduced operation, ¬ IsAnOperation control) (hanchor : ¬ IsAnOperation anchor)
    (hrest : ∀ control ∈ rest, ¬ IsAnOperation control) :
    ∀ control ∈ spliceAt operation anchor rest, ¬ IsAnOperation control := by
  obtain ⟨kind, name, properties, children⟩ := anchor
  unfold introduced at hintroduced
  unfold spliceAt
  cases hwhere : whereOf operation <;> rw [hwhere] at hintroduced <;> dsimp only at hintroduced ⊢
  case modify | addfirst | addlast => exact List.forall_mem_cons.mpr ⟨hanchor, hrest⟩
  case addbefore => exact List.forall_mem_append.mpr ⟨hintroduced, List.forall_mem_cons.mpr ⟨hanchor, hrest⟩⟩
  case addafter => exact List.forall_mem_cons.mpr ⟨hanchor, List.forall_mem_append.mpr ⟨hintroduced, hrest⟩⟩

theorem splice_plain {operation : Control} {f f' : List Control} (h : splice operation f = some f')
    (hintroduced : ∀ control ∈ introduced operation, ¬ IsAnOperation control)
    (hf : ∀ control ∈ f, ¬ IsAnOperation control) : ∀ control ∈ f', ¬ IsAnOperation control := by
  induction f generalizing f' with
  | nil => cases h
  | cons control f ih =>
    obtain ⟨hcontrol, hrest⟩ := List.forall_mem_cons.mp hf
    rw [splice] at h
    split at h
    · obtain rfl := Option.some.inj h
      exact spliceAt_plain hintroduced hcontrol hrest
    · split at h
      · next spliced hspliced =>
        obtain rfl := Option.some.inj h
        refine List.forall_mem_cons.mpr ⟨?_, hrest⟩
        obtain ⟨kind, name, properties, children⟩ := control
        rw [spliceChildren] at hspliced
        obtain ⟨children', -, rfl⟩ := Option.map_eq_some_iff.mp hspliced
        exact hcontrol
      · obtain ⟨rest, hrest', rfl⟩ := Option.map_eq_some_iff.mp h
        exact List.forall_mem_cons.mpr ⟨hcontrol, ih hrest' hrest⟩

section
variable {base operations placed waiting controls controls' : List Control} {operation : Control}

theorem State.nodup (h : State base operations placed waiting controls) (hextends : Extends base operations) :
    (names controls).Nodup := by
  have hperm := (h.perm.flatMap_right fun operation => names (introduced operation)).append_left (names base)
  have hnodup := hperm.nodup_iff.mpr hextends.distinct
  rw [List.flatMap_append, ← List.append_assoc] at hnodup
  exact h.stands.names.nodup_iff.mpr (List.nodup_append'.mp hnodup).1

theorem splice_isSome (h : splice operation controls = some controls') : operation.key ∈ names controls := by
  by_contra hnot
  rw [(splice_isNone operation controls).mpr hnot] at h
  cases h

/-- An anchor that stands in a page makes its operation placeable. -/
theorem State.placeable_of_mem (h : State base operations placed waiting controls)
    (hkey : operation.key ∈ names controls) : Placeable base operations operation := by
  rcases List.mem_append.mp (h.stands.names.mem_iff.mp hkey) with hbase | hplaced
  · exact .page hbase
  · obtain ⟨other, hother, hmem⟩ := List.mem_flatMap.mp hplaced
    exact .brought (h.perm.mem_iff.mp (List.mem_append_left _ hother)) (h.placeable other hother) hmem

theorem State.splice (h : State base operations placed (operation :: waiting) controls)
    (hextends : Extends base operations) (hsplice : splice operation controls = some controls') :
    State base operations (placed ++ [operation]) waiting controls' := by
  have hoperation : operation ∈ operations := h.perm.mem_iff.mp (List.mem_append_right _ List.mem_cons_self)
  refine ⟨?_, h.stands.splice (h.nodup hextends) hsplice, ?_,
      splice_plain hsplice (hextends.control _ hoperation) h.plain⟩
  · rw [List.append_assoc]
    exact h.perm
  · exact List.forall_mem_append.mpr ⟨h.placeable,
      List.forall_mem_singleton.mpr (h.placeable_of_mem (splice_isSome hsplice))⟩

theorem State.reorder {waiting' : List Control} (h : State base operations placed waiting controls)
    (hperm : waiting'.Perm waiting) : State base operations placed waiting' controls :=
  ⟨(hperm.append_left placed).trans h.perm, h.stands, h.placeable, h.plain⟩

/-! ### Taking the operations -/

theorem takeControls_append (into more others : List Control) :
    (takeControls into (more ++ others)).1 = (takeControls (takeControls into more).1 others).1 := by
  induction more generalizing into with
  | nil => rfl
  | cons control more ih =>
    rw [List.cons_append, takeControls, takeControls]
    split
    · split
      · exact ih _
      · exact ih _
    · exact ih _

/-- The operations of all extensions are taken one after the other. -/
theorem takeControls_foldl (extensions : List (List Control)) (into : List Control) :
    extensions.foldl (fun into extension => (takeControls into extension).1) into =
      (takeControls into extensions.flatten).1 := by
  induction extensions generalizing into with
  | nil => rfl
  | cons extension extensions ih => rw [List.foldl_cons, List.flatten_cons, takeControls_append, ih]

/-- The keys that stand in the page, and those that what waits names or brings. -/
structure Tracks (present named : List Key) (controls parked : List Control) : Prop where
  present : ∀ key, key ∈ present ↔ key ∈ names controls
  named : ∀ key, key ∈ named ↔ key ∈ names parked

section
variable {present named : List Key} {parked more spliced : List Control}

theorem Tracks.splice_some (h : Tracks present named controls parked) (hkey : operation.key ∈ present) :
    ∃ spliced, splice operation controls = some spliced := by
  cases hsplice : splice operation controls with
  | none => exact absurd ((h.present _).mp hkey) ((splice_isNone operation controls).mp hsplice)
  | some spliced => exact ⟨spliced, rfl⟩

theorem Tracks.splice_none (h : Tracks present named controls parked) (hkey : operation.key ∉ present)
    (hwaits : operation.key ∉ named) : splice operation (controls ++ parked) = none := by
  rw [splice_isNone, names_append, List.mem_append, not_or, ← h.present, ← h.named]
  exact ⟨hkey, hwaits⟩

theorem Tracks.onward (h : Tracks present named controls parked) (hsplice : splice operation controls = some spliced) :
    Tracks (present ++ names (introduced operation)) named spliced parked := by
  refine ⟨fun key => ?_, h.named⟩
  rw [(splice_names hsplice).mem_iff, List.mem_append, List.mem_append, h.present]

theorem Tracks.waits (h : Tracks present named controls parked) (operation : Control) :
    Tracks present (named ++ operation.names) controls (parked ++ [operation]) := by
  refine ⟨h.present, fun key => ?_⟩
  rw [List.mem_append, names_append, List.mem_append, h.named]
  simp [names]

/-- The first operation that is left is placed before those that wait. -/
theorem State.onward (h : State base operations placed (parked ++ operation :: more) controls)
    (hextends : Extends base operations) (hsplice : Extension.splice operation controls = some spliced) :
    State base operations (placed ++ [operation]) (parked ++ more) spliced :=
  (h.reorder List.perm_middle.symm).splice hextends hsplice

/-- Or it waits behind them. -/
theorem State.waits (h : State base operations placed (parked ++ operation :: more) controls) :
    State base operations placed (parked ++ [operation] ++ more) controls := by
  rw [List.append_assoc]
  exact h

theorem State.isOperation (h : State base operations placed waiting controls) (hextends : Extends base operations) :
    ∀ operation ∈ waiting, IsAnOperation operation :=
  fun operation hwaits => hextends.operation operation (h.perm.mem_iff.mp (List.mem_append_right _ hwaits))

/-- While nothing is taken for an anchor that is none, what is taken stands where it says or waits as it is. -/
theorem takeControls_clear (hextends : Extends base operations)
    (h : State base operations placed (parked ++ more) controls) (hclear : Clear present named more)
    (htracks : Tracks present named controls parked) :
    ∃ placed parked' controls', (takeControls (controls ++ parked) more).1 = controls' ++ parked' ∧
      State base operations placed parked' controls' ∧ ∀ operation ∈ parked', IsAnOperation operation := by
  induction more generalizing placed controls present named parked with
  | nil =>
    rw [List.append_nil] at h
    exact ⟨placed, parked, controls, rfl, h, h.isOperation hextends⟩
  | cons operation more ih =>
    have hoperation := h.isOperation hextends operation (List.mem_append_right _ List.mem_cons_self)
    rw [takeControls, if_pos hoperation]
    rw [Clear] at hclear
    by_cases hkey : operation.key ∈ present
    · obtain ⟨spliced, hsplice⟩ := htracks.splice_some hkey
      rw [if_pos hkey] at hclear
      rw [splice_append hsplice]
      exact ih (h.onward hextends hsplice) hclear (htracks.onward hsplice)
    · rw [if_neg hkey] at hclear
      rw [htracks.splice_none hkey hclear.1, List.append_assoc]
      exact ih h.waits hclear.2 (htracks.waits operation)

/-- Else an operation finds its anchor in what waits, and in none of the controls of the page. -/
theorem takeControls_taken (hextends : Extends base operations)
    (h : State base operations placed (parked ++ more) controls) (hclear : ¬ Clear present named more)
    (htracks : Tracks present named controls parked) :
    ∃ before operation after controls' parked', more = before ++ operation :: after ∧
      (takeControls (controls ++ parked) before).1 = controls' ++ parked' ∧
        (∀ control ∈ controls', ¬ IsAnOperation control) ∧ (∀ control ∈ parked', IsAnOperation control) ∧
          operation.key ∉ names controls' ∧ operation.key ∈ names parked' := by
  induction more generalizing placed controls present named parked with
  | nil => exact absurd trivial hclear
  | cons operation more ih =>
    have hoperations := List.forall_mem_append.mp (h.isOperation hextends)
    have hoperation : IsAnOperation operation := hoperations.2 operation List.mem_cons_self
    rw [Clear] at hclear
    by_cases hkey : operation.key ∈ present
    · obtain ⟨spliced, hsplice⟩ := htracks.splice_some hkey
      rw [if_pos hkey] at hclear
      obtain ⟨before, taken, after, controls', parked', rfl, htaken, hspec⟩ :=
        ih (h.onward hextends hsplice) hclear (htracks.onward hsplice)
      refine ⟨operation :: before, taken, after, controls', parked', rfl, ?_, hspec⟩
      rw [takeControls, if_pos hoperation, splice_append hsplice]
      exact htaken
    · rw [if_neg hkey] at hclear
      by_cases hwaits : operation.key ∈ named
      · exact ⟨[], operation, more, controls, parked, rfl, rfl, h.plain, hoperations.1,
          mt (htracks.present _).mpr hkey, (htracks.named _).mp hwaits⟩
      · obtain ⟨before, taken, after, controls', parked', rfl, htaken, hspec⟩ :=
          ih h.waits (fun hlater => hclear ⟨hwaits, hlater⟩) (htracks.waits operation)
        refine ⟨operation :: before, taken, after, controls', parked', rfl, ?_, hspec⟩
        rw [takeControls, if_pos hoperation, htracks.splice_none hkey hwaits, List.append_assoc]
        exact htaken

end

/-! ### The loop -/

/-- A turn of the loop places operations, or finds no anchor of one. -/
theorem sweep_spec (hextends : Extends base operations) {later : List Control}
    (h : State base operations placed (waiting ++ later) controls) :
    ∃ placed, State base operations placed ((sweep controls waiting).2.1 ++ later) (sweep controls waiting).1 ∧
      (sweep controls waiting).2.1.length ≤ waiting.length ∧
        ((sweep controls waiting).2.2 = true → (sweep controls waiting).2.1.length < waiting.length) ∧
          ((sweep controls waiting).2.2 = false → (sweep controls waiting).1 = controls ∧
            ∀ operation ∈ (sweep controls waiting).2.1, operation.key ∉ names controls) := by
  induction waiting generalizing placed controls later with
  | nil => exact ⟨placed, h, Nat.le_refl _, nofun, fun _ => ⟨rfl, fun _ hnone => nomatch hnone⟩⟩
  | cons operation waiting ih =>
    rw [sweep]
    cases hsplice : splice operation controls with
    | some controls' =>
      obtain ⟨placed', hstate, hle, -⟩ := ih (h.splice hextends hsplice)
      exact ⟨placed', hstate, Nat.le_succ_of_le hle, fun _ => Nat.lt_succ_of_le hle, nofun⟩
    | none =>
      have hlast : State base operations placed (waiting ++ operation :: later) controls :=
          h.reorder List.perm_middle
      obtain ⟨placed', hstate, hle, hmoved, hstays⟩ := ih hlast
      refine ⟨placed', hstate.reorder List.perm_middle.symm, Nat.succ_le_succ hle,
        fun htrue => Nat.succ_lt_succ (hmoved htrue), fun hfalse => ?_⟩
      obtain ⟨hsame, hnone⟩ := hstays hfalse
      exact ⟨hsame, List.forall_mem_cons.mpr ⟨(splice_isNone operation controls).mp hsplice, hnone⟩⟩

/-- The loop ends, when no operation that is left finds its anchor. -/
theorem sweeps_spec (hextends : Extends base operations) (turns : Nat)
    (h : State base operations placed waiting controls) (hturns : waiting.length < turns) :
    ∃ placed left controls', sweeps turns controls waiting = some (controls', left) ∧
      State base operations placed left controls' ∧ ∀ operation ∈ left, operation.key ∉ names controls' := by
  induction turns generalizing placed waiting controls with
  | zero => cases hturns
  | succ turns ih =>
    rw [sweeps]
    split
    · next hnil =>
      subst hnil
      exact ⟨placed, [], controls, rfl, h, fun _ hnone => nomatch hnone⟩
    · have hall : State base operations placed (waiting ++ []) controls := by
        rw [List.append_nil]
        exact h
      obtain ⟨placed', hstate, -, hmoved, hstays⟩ := sweep_spec hextends hall
      rw [List.append_nil] at hstate
      dsimp only
      split
      · next htrue => exact ih hstate (Nat.lt_of_lt_of_le (hmoved htrue) (Nat.le_of_lt_succ hturns))
      · next hfalse =>
        obtain ⟨hsame, hnone⟩ := hstays (Bool.eq_false_iff.mpr hfalse)
        refine ⟨placed', _, _, rfl, hstate, ?_⟩
        rw [hsame]
        exact hnone

end

/-! ### What is merged -/

/-- What becomes of a page and the operations of its extensions. -/
structure Landing (base operations controls placed left : List Control) : Prop where
  /-- Every operation is placed or left. -/
  perm : (placed ++ left).Perm operations
  /-- An operation is placed if its anchor is a control of the page or of an operation that is placed. -/
  placed_iff : ∀ operation ∈ operations, operation ∈ placed ↔
    operation.key ∈ names base ∨ ∃ other ∈ placed, operation.key ∈ names (introduced other)
  /-- Which are placed does not depend on their order. -/
  placeable_iff : ∀ operation ∈ operations, operation ∈ placed ↔ Placeable base operations operation
  left_iff : ∀ operation ∈ operations, operation ∈ left ↔ ¬ Placeable base operations operation
  /-- Every control of the page and of the operations that are placed stands once. -/
  names : (names controls).Perm (names base ++ placed.flatMap fun operation => names (introduced operation))
  nodup : (Extension.names controls).Nodup
  /-- No control of an operation that is left stands among them. -/
  outside : ∀ operation ∈ left, ∀ key ∈ Extension.names (introduced operation), key ∉ Extension.names controls
  /-- The rows of the page and of the operations that are placed keep their parents and their order. -/
  declared : ∀ row ∈ declared base placed, ∃ standing, (row.1, standing) ∈ layout controls ∧ row.2.Sublist standing
  landed : ∀ operation ∈ placed, Landed base placed controls operation

theorem State.landing {base operations placed left controls : List Control} (hextends : Extends base operations)
    (h : State base operations placed left controls) (hleft : ∀ operation ∈ left, operation.key ∉ names controls) :
    Landing base operations controls placed left := by
  -- Nothing that is placeable is left: by induction, its anchor stands in the page.
  have hstands : ∀ operation, Placeable base operations operation → operation.key ∈ names controls := by
    intro operation hplaceable
    induction hplaceable with
    | page hkey => exact h.stands.names.mem_iff.mpr (List.mem_append_left _ hkey)
    | @brought operation other hother _ hkey ih =>
      have hplaced : other ∈ placed := by
        rcases List.mem_append.mp (h.perm.mem_iff.mpr hother) with hplaced | hwaits
        · exact hplaced
        · exact absurd ih (hleft other hwaits)
      exact h.stands.names.mem_iff.mpr (List.mem_append_right _ (List.mem_flatMap.mpr ⟨other, hplaced, hkey⟩))
  have hplaceable : ∀ operation ∈ operations, operation ∈ placed ↔ Placeable base operations operation := by
    refine fun operation hoperation => ⟨h.placeable operation, fun hplaceable => ?_⟩
    rcases List.mem_append.mp (h.perm.mem_iff.mpr hoperation) with hplaced | hwaits
    · exact hplaced
    · exact absurd (hstands _ hplaceable) (hleft operation hwaits)
  have hnodup := h.nodup hextends
  refine ⟨h.perm, fun operation hoperation => ?_, hplaceable, fun operation hoperation => ?_, h.stands.names, hnodup,
    fun operation hoperation key hkey hmem => ?_, h.stands.declared, h.stands.landed⟩
  · rw [hplaceable operation hoperation]
    refine ⟨fun hplaced => ?_, fun hanchor => ?_⟩
    · rcases List.mem_append.mp (h.stands.names.mem_iff.mp (hstands _ hplaced)) with hbase | hbrought
      · exact .inl hbase
      · exact .inr (List.mem_flatMap.mp hbrought)
    · rcases hanchor with hbase | ⟨other, hother, hkey⟩
      · exact .page hbase
      · exact .brought (h.perm.mem_iff.mp (List.mem_append_left _ hother)) (h.placeable other hother) hkey
  · refine ⟨fun hwaits hplaceable => hleft operation hwaits (hstands _ hplaceable), fun hnot => ?_⟩
    rcases List.mem_append.mp (h.perm.mem_iff.mpr hoperation) with hplaced | hwaits
    · exact absurd (h.placeable operation hplaced) hnot
    · exact hwaits
  · have hperm := (h.perm.flatMap_right fun operation => Extension.names (introduced operation)).append_left
      (Extension.names base)
    have hall := hperm.nodup_iff.mpr hextends.distinct
    rw [List.flatMap_append, ← List.append_assoc] at hall
    have hdisjoint := (List.nodup_append'.mp hall).2.2
    exact hdisjoint (h.stands.names.mem_iff.mp hmem) (List.mem_flatMap.mpr ⟨operation, hoperation, hkey⟩)

theorem Extends.state {base operations : List Control} (hextends : Extends base operations) :
    State base operations [] ([] ++ operations) base :=
  ⟨.refl _, Stands.base base, fun _ hnone => (nomatch hnone), hextends.page⟩

theorem merge_clear {base : List Control} {extensions : List (List Control)} (unplaced : Nat)
    (hextends : Extends base extensions.flatten) (hclear : Clear (names base) [] extensions.flatten) :
    ∃ controls placed left,
      mergeSection base extensions unplaced = some (controls ++ left, unplaced + left.length) ∧
        Landing base extensions.flatten controls placed left := by
  obtain ⟨placed, parked, controls, htaken, hstate, hparked⟩ :=
    takeControls_clear hextends hextends.state hclear ⟨fun _ => Iff.rfl, fun _ => Iff.rfl⟩
  rw [List.append_nil] at htaken
  have hwaiting : (controls ++ parked).filter (fun control => IsAnOperation control) = parked := by
    rw [List.filter_append, List.filter_eq_nil_iff.mpr (by simpa using hstate.plain),
      List.filter_eq_self.mpr (by simpa using hparked), List.nil_append]
  have hcontrols : (controls ++ parked).filter (fun control => ¬ IsAnOperation control) = controls := by
    rw [List.filter_append, List.filter_eq_self.mpr (by simpa using hstate.plain),
      List.filter_eq_nil_iff.mpr (by simpa using hparked), List.append_nil]
  rw [mergeSection, takeControls_foldl, htaken, spliceOperations]
  simp only [hwaiting, hcontrols]
  split
  · next hnil =>
    subst hnil
    exact ⟨controls, placed, [], rfl, hstate.landing hextends fun _ hnone => nomatch hnone⟩
  · obtain ⟨placed', left, controls', hsweeps, hstate', hleft⟩ :=
      sweeps_spec hextends _ hstate (Nat.lt_succ_self _)
    rw [hsweeps]
    exact ⟨controls', placed', left, rfl, hstate'.landing hextends hleft⟩

/-- **Page extensions land where they say**, if no operation is taken that names an anchor which is not there, and
which one that waits names or brings; and if one is, it finds its anchor in what waits. -/
theorem merge_lands {base : List Control} {extensions : List (List Control)} (unplaced : Nat)
    (hextends : Extends base extensions.flatten) :
    (Clear (names base) [] extensions.flatten →
      ∃ controls placed left,
        mergeSection base extensions unplaced = some (controls ++ left, unplaced + left.length) ∧
          Landing base extensions.flatten controls placed left) ∧
      (¬ Clear (names base) [] extensions.flatten →
        ∃ before operation after controls parked, extensions.flatten = before ++ operation :: after ∧
          (takeControls base before).1 = controls ++ parked ∧ (∀ control ∈ controls, ¬ IsAnOperation control) ∧
            (∀ control ∈ parked, IsAnOperation control) ∧ operation.key ∉ names controls ∧
              operation.key ∈ names parked) := by
  refine ⟨merge_clear unplaced hextends, fun hclear => ?_⟩
  have htaken := takeControls_taken hextends hextends.state hclear ⟨fun _ => Iff.rfl, fun _ => Iff.rfl⟩
  rwa [List.append_nil] at htaken

/-! ### An anchor that comes later -/

def named (kind name : String) (children : List Control) : Control := .mk kind name [] children

/-- `addlast(X) { A }` of one extension, and `addlast(P) { X }` of another. -/
def lateAnchor : List (List Control) :=
  [[named "addlast" "X" [named "field" "A" []]], [named "addlast" "P" [named "group" "X" []]]]

theorem lateAnchor_lands :
    ∃ controls placed left, mergeSection [named "group" "P" []] lateAnchor 0 =
        some (controls ++ left, 0 + left.length) ∧
      Landing [named "group" "P" []] lateAnchor.flatten controls placed left := by
  refine (merge_lands 0 ⟨?_, ?_, ?_, ?_⟩).1 ?_
  · decide
  · decide
  · decide
  · decide
  · decide

/-! ### An anchor that is missing -/

/-- `addlast(X) { A }` and `addlast(X) { B }` -/
def missingAnchor : List Control :=
  [named "addlast" "X" [named "field" "A" []], named "addlast" "X" [named "field" "B" []]]

/-- Two operations whose anchor is missing are counted as one, and the second is no longer there. -/
theorem missingAnchor_counted :
    Extends [named "group" "P" []] missingAnchor ∧
      ¬ ∃ controls placed left,
        mergeSection [named "group" "P" []] [missingAnchor] 0 = some (controls ++ left, 0 + left.length) ∧
          Landing [named "group" "P" []] missingAnchor controls placed left := by
  refine ⟨⟨by decide, by decide, by decide, by decide⟩, ?_⟩
  rintro ⟨controls, placed, left, hmerge, hlanding⟩
  have hcount : mergeSection [named "group" "P" []] [missingAnchor] 0 = some ([named "group" "P" [],
      named "addlast" "X" [named "field" "A" [], named "field" "B" []]], 1) := by
    rfl
  have hone : left.length = 1 := by
    rw [hcount] at hmerge
    have hlength := (Prod.mk.inj (Option.some.inj hmerge)).2
    omega
  -- Neither operation is placeable, so that both are left.
  have hnone : ∀ operation ∈ missingAnchor, operation.key ∉ names [named "group" "P" []] ∧
      ∀ other ∈ missingAnchor, operation.key ∉ names (introduced other) := by decide
  have hleft : ∀ operation ∈ missingAnchor, operation ∈ left := fun operation hoperation => by
    rw [hlanding.left_iff operation hoperation]
    intro hplaceable
    cases hplaceable with
    | page hkey => exact (hnone operation hoperation).1 hkey
    | brought hother _ hkey => exact (hnone operation hoperation).2 _ hother hkey
  obtain ⟨only, rfl⟩ := List.length_eq_one_iff.mp hone
  have hfirst := List.mem_singleton.mp (hleft _ List.mem_cons_self)
  have hsecond := List.mem_singleton.mp (hleft _ (List.mem_cons_of_mem _ List.mem_cons_self))
  have hnames := congrArg (fun control => names control.children) (hfirst.trans hsecond.symm)
  exact absurd hnames (by decide)

end Agiru.Extension
