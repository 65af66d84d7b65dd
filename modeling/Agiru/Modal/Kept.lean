import Agiru.Modal.Host
import Mathlib.Data.List.Nodup

/-! What every step of a call's modals keeps.

A modal that is not busy has no input, and none was admitted at its revision; an input that
waits was not executed. A run's modal is the innermost of the call's until it restores them. -/
namespace Agiru.Modal
open Undo

variable {s t : State}

/-! ### The cases of an acceptance -/

/-- A command that is new, and to the call's innermost modal, which waits for one. -/
structure Admits (s : State) (handle revision : String) (input : PageModalInput) : Prop where
  innermost : ∃ outer, s.modal = handle :: outer
  call : s.finished = false ∧ s.cancelled = false ∧ s.question = false
  idle : (s.objects handle).busy = false
  revision : revision = toString (s.objects handle).revision
  ordinal : ∃ ordinal, ordinalOf (s.objects handle).commandPrefix input.command = some ordinal
  selects : s.selects handle (s.objects handle) = true
  new : s.commands handle input.command = none

theorem accept_cases (s : State) (handle revision : String) (candidate : PageModalInput)
    (fault : Fault) :
    let input := {candidate with modal := handle}
    let accepted := s.acceptPageModal handle revision candidate fault
    accepted.1 = s ∧ accepted.2 ≠ .fresh ∨
      Admits s handle revision input ∧
        (accepted = (s.takes handle input, .fresh) ∨ accepted =
          (s.setReceipt handle input.command ⟨input.digest, .queued⟩, .databaseError)) := by
  intro input accepted
  simp only [accepted, State.acceptPageModal]
  split
  · exact .inl ⟨rfl, (by intro hnone; cases hnone)⟩
  split
  · refine .inl ⟨rfl, ?_⟩
    unfold replayInput
    split
    · intro hnone; cases hnone
    · cases ‹Receipt›.outcome <;> (intro hnone; cases hnone)
  split
  · exact .inl ⟨rfl, (by intro hnone; cases hnone)⟩
  rename_i current outer hmodal
  split
  · exact .inl ⟨rfl, (by intro hnone; cases hnone)⟩
  rename_i hstale
  simp only [Bool.or_eq_true, decide_eq_true_eq, ne_eq, not_or, Bool.not_eq_true, not_not] at hstale
  obtain ⟨⟨⟨⟨hfinished, hcancelled⟩, hquestion⟩, rfl⟩, hidle⟩ := hstale
  split
  · exact .inl ⟨rfl, (by intro hnone; cases hnone)⟩
  rename_i ordinal hordinal
  split
  · exact .inl ⟨rfl, (by intro hnone; cases hnone)⟩
  rename_i hrevision
  split
  · exact .inl ⟨rfl, (by intro hnone; cases hnone)⟩
  split
  · exact .inl ⟨rfl, (by intro hnone; cases hnone)⟩
  split
  · exact .inl ⟨rfl, (by intro hnone; cases hnone)⟩
  rename_i hselects
  split
  · exact .inl ⟨rfl, (by intro hnone; cases hnone)⟩
  rename_i hnew
  simp only [Bool.or_eq_true, Bool.not_eq_true', not_or, Bool.not_eq_false] at hselects
  have hadmits : Admits s current revision input :=
    ⟨⟨outer, hmodal⟩, ⟨hfinished, hcancelled, hquestion⟩, hidle, not_not.mp hrevision,
      ⟨ordinal, hordinal⟩, hselects.2, by simpa using hnew⟩
  split
  · exact .inl ⟨rfl, (by intro hnone; cases hnone)⟩
  · exact .inr ⟨hadmits, .inr rfl⟩
  · exact .inr ⟨hadmits, .inl rfl⟩

/-! ### The invariant -/

/-- The modals of a call, by the runs of its thread: `Restore` takes the innermost away. -/
def openModals : List Frame → List String
  | [] => []
  | f :: rest => if f.pc = .closeUnwind then rest.map Frame.handle
    else f.handle :: rest.map Frame.handle

/-- Each run began inside the one below it. -/
def Nested : List Frame → Prop
  | [] => True
  | f :: rest => f.parent = rest.map Frame.handle ∧ (∀ g ∈ rest, g.pc.runsCode = true) ∧ Nested rest

/-- A run that may find an input. -/
def Pc.waits : Pc → Bool
  | .wait | .unwind | .closeUnwind => true
  | _ => false

/-- A run that has not executed an input at its revision. -/
def Pc.ready : Pc → Bool
  | .publish | .opening | .snapshot | .wait | .start _ => true
  | _ => false

/-- A run that no input was admitted for. -/
def Pc.opens : Pc → Bool
  | .publish | .opening | .snapshot => true
  | _ => false

theorem opens_of_waits {pc : Pc} (h : pc.waits = true) : pc.opens = false := by
  cases pc with
  | wait | unwind | closeUnwind => rfl
  | _ => cases h

/-- An input that was admitted at the modal's revision, and not executed. -/
structure Pending (s : State) (handle : String) (input : PageModalInput) : Prop where
  addressed : input.modal = handle
  admitted : ⟨(s.objects handle).revision, input⟩ ∈ s.admitted
  receipt : (s.commands handle input.command).isSome
  new : ∀ e ∈ s.executed, e.handle = handle → e.input.command ≠ input.command

/-- No receipt of a modal is queued. -/
def Settled (s : State) (handle : String) : Prop :=
  ∀ command receipt, s.commands handle command = some receipt → receipt.outcome ≠ .queued

structure FrameOk (s : State) (f : Frame) : Prop where
  idle : (s.objects f.handle).busy = false → f.published = true ∧ f.pc.waits = true ∧
    (s.objects f.handle).input = none ∧
    ∀ a ∈ s.admitted, a.input.modal = f.handle → a.revision < (s.objects f.handle).revision
  input : ∀ input, (s.objects f.handle).input = some input →
    f.pc.waits = true ∧ Pending s f.handle input
  start : ∀ input, f.pc = .start input → Pending s f.handle input
  admitted : ∀ a ∈ s.admitted, a.input.modal = f.handle →
    a.revision ≤ (s.objects f.handle).revision
  executed : f.pc.ready = true → ∀ e ∈ s.executed, e.handle = f.handle →
    e.revision < (s.objects f.handle).revision
  unpublished : f.published = false → ∀ command, s.commands f.handle command = none
  publish : f.pc = .publish → f.published = false
  running : f.published = false → f.pc = .publish ∨ f.pc = .unwind ∨ f.pc = .closeUnwind
  opens : f.pc.opens = true → ∀ a ∈ s.admitted, a.input.modal ≠ f.handle
  settled : f.pc = .restore → Settled s f.handle

structure ExecutionOk (s : State) (e : Execution) : Prop where
  addressed : e.input.modal = e.handle
  admitted : ⟨e.revision, e.input⟩ ∈ s.admitted
  receipt : (s.commands e.handle e.input.command).isSome

structure Inv (s : State) : Prop where
  frames : ∀ f ∈ s.frames, FrameOk s f
  nested : Nested s.frames
  modal : s.modal = openModals s.frames
  apart : (s.frames.map Frame.handle).Nodup
  drawn : ∀ f ∈ s.frames, f.handle ∈ s.handles
  commands : ∀ handle command, s.commands handle command ≠ none → handle ∈ s.handles
  admissions : ∀ a ∈ s.admitted, a.input.modal ∈ s.handles
  ended : ∀ handle ∈ s.ended,
    handle ∈ s.handles ∧ (∀ f ∈ s.frames, f.handle ≠ handle) ∧ Settled s handle
  admitted : (s.admitted.map fun a => (a.input.modal, a.revision)).Nodup
  executed : ∀ e ∈ s.executed, ExecutionOk s e
  once : (s.executed.map fun e => (e.handle, e.input.command)).Nodup
  order : s.executed.Pairwise fun later earlier => later.handle = earlier.handle →
    earlier.revision < later.revision

theorem Inv.initial : Inv .initial where
  frames f hf := by cases hf
  nested := trivial
  modal := rfl
  apart := List.nodup_nil
  drawn f hf := by cases hf
  commands handle command h := absurd rfl h
  admissions a ha := by cases ha
  ended handle h := by cases h
  admitted := List.nodup_nil
  executed e he := by cases he
  once := List.nodup_nil
  order := .nil

/-! ### What a step at one modal leaves of the others -/

/-- Two states that a run of the modal does not tell apart. -/
structure SameAt (s t : State) (handle : String) : Prop where
  objects : t.objects handle = s.objects handle
  commands : t.commands handle = s.commands handle
  admitted : ∀ a, a.input.modal = handle → (a ∈ t.admitted ↔ a ∈ s.admitted)
  executed : ∀ e, e.handle = handle → (e ∈ t.executed ↔ e ∈ s.executed)

theorem Pending.sameAt {handle : String} {input : PageModalInput} (h : Pending s handle input)
    (hsame : SameAt s t handle) : Pending t handle input where
  addressed := h.addressed
  admitted := by
    rw [hsame.objects]
    exact (hsame.admitted _ h.addressed).mpr h.admitted
  receipt := by
    rw [hsame.commands]
    exact h.receipt
  new e he hhandle := h.new e ((hsame.executed e hhandle).mp he) hhandle

theorem FrameOk.busy {f : Frame} (h : FrameOk s f) (hpc : f.pc.waits = false) :
    (s.objects f.handle).busy = true := by
  cases hbusy : (s.objects f.handle).busy with
  | true => rfl
  | false =>
    have hwaits := (h.idle hbusy).2.1
    rw [hpc] at hwaits
    cases hwaits

theorem FrameOk.noInput {f : Frame} (h : FrameOk s f) (hpc : f.pc.waits = false) :
    (s.objects f.handle).input = none := by
  cases hinput : (s.objects f.handle).input with
  | none => rfl
  | some input =>
    have hwaits := (h.input input hinput).1
    rw [hpc] at hwaits
    cases hwaits

/-- A run that has gone past the opening of its modal has published it. -/
theorem FrameOk.isPublished {f : Frame} (h : FrameOk s f) (hpublish : f.pc ≠ .publish)
    (hunwind : f.pc ≠ .unwind) (hclose : f.pc ≠ .closeUnwind) : f.published = true := by
  cases hpublished : f.published with
  | true => rfl
  | false => rcases h.running hpublished with hpc | hpc | hpc <;> contradiction

theorem FrameOk.sameAt {f : Frame} (h : FrameOk s f) (hsame : SameAt s t f.handle) : FrameOk t f where
  idle hidle := by
    rw [hsame.objects] at hidle ⊢
    obtain ⟨hpublished, hwaits, hinput, hadmitted⟩ := h.idle hidle
    refine ⟨hpublished, hwaits, hinput, fun a ha hmodal => ?_⟩
    exact hadmitted a ((hsame.admitted a hmodal).mp ha) hmodal
  input input hinput := by
    rw [hsame.objects] at hinput
    obtain ⟨hwaits, hpending⟩ := h.input input hinput
    exact ⟨hwaits, hpending.sameAt hsame⟩
  start input hpc := (h.start input hpc).sameAt hsame
  admitted a ha hmodal := by
    rw [hsame.objects]
    exact h.admitted a ((hsame.admitted a hmodal).mp ha) hmodal
  executed hready e he hhandle := by
    rw [hsame.objects]
    exact h.executed hready e ((hsame.executed e hhandle).mp he) hhandle
  unpublished hpublished command := by
    rw [hsame.commands]
    exact h.unpublished hpublished command
  publish := h.publish
  running := h.running
  opens hpc a ha hmodal := h.opens hpc a ((hsame.admitted a hmodal).mp ha) hmodal
  settled hpc command receipt hreceipt := by
    rw [hsame.commands] at hreceipt
    exact h.settled hpc command receipt hreceipt

/-! ### A step of the innermost run -/

section
variable {f g : Frame} {rest : List Frame}

/-- The innermost run has gone on: what changed is its own modal. -/
structure Moves (s t : State) (f g : Frame) (rest : List Frame) : Prop where
  frames : t.frames = g :: rest
  handle : g.handle = f.handle
  parent : g.parent = f.parent
  modal : t.modal = openModals (g :: rest)
  objects : ∀ handle, handle ≠ f.handle → t.objects handle = s.objects handle
  commands : ∀ handle, handle ≠ f.handle → t.commands handle = s.commands handle
  kept : ∀ command, (s.commands f.handle command).isSome → (t.commands f.handle command).isSome
  handles : t.handles = s.handles
  ended : t.ended = s.ended
  admitted : t.admitted = s.admitted
  executed : t.executed = s.executed

theorem Inv.apart_rest (h : Inv s) (hframes : s.frames = f :: rest) :
    ∀ g ∈ rest, g.handle ≠ f.handle := by
  have hapart := h.apart
  rw [hframes, List.map_cons, List.nodup_cons] at hapart
  intro g hg heq
  exact hapart.1 (heq ▸ List.mem_map_of_mem hg)

theorem Inv.moves (h : Inv s) (hframes : s.frames = f :: rest) (hmoves : Moves s t f g rest)
    (hok : FrameOk t g) : Inv t := by
  have hrest := h.apart_rest hframes
  have hmem : f ∈ s.frames := hframes ▸ List.mem_cons_self ..
  have hmemRest {k : Frame} (hg : k ∈ rest) : k ∈ s.frames := hframes ▸ List.mem_cons_of_mem _ hg
  have hkept (handle command : String) (hsome : (s.commands handle command).isSome) :
      (t.commands handle command).isSome := by
    by_cases heq : handle = f.handle
    · subst heq
      exact hmoves.kept command hsome
    · rw [hmoves.commands handle heq]
      exact hsome
  have hnested := h.nested
  rw [hframes] at hnested
  constructor
  case frames =>
    intro k hg
    rw [hmoves.frames] at hg
    rcases List.mem_cons.mp hg with rfl | hg
    · exact hok
    · have hne := hrest k hg
      refine (h.frames k (hmemRest hg)).sameAt
        ⟨hmoves.objects _ hne, hmoves.commands _ hne, fun a _ => ?_, fun e _ => ?_⟩
      · rw [hmoves.admitted]
      · rw [hmoves.executed]
  case nested =>
    rw [hmoves.frames]
    exact ⟨hmoves.parent.trans hnested.1, hnested.2⟩
  case modal =>
    rw [hmoves.frames]
    exact hmoves.modal
  case apart =>
    have hapart := h.apart
    rw [hframes, List.map_cons] at hapart
    rw [hmoves.frames, List.map_cons, hmoves.handle]
    exact hapart
  case drawn =>
    intro k hg
    rw [hmoves.frames] at hg
    rw [hmoves.handles]
    rcases List.mem_cons.mp hg with rfl | hg
    · rw [hmoves.handle]
      exact h.drawn f hmem
    · exact h.drawn k (hmemRest hg)
  case commands =>
    intro handle command hsome
    rw [hmoves.handles]
    by_cases heq : handle = f.handle
    · subst heq
      exact h.drawn f hmem
    · rw [hmoves.commands handle heq] at hsome
      exact h.commands handle command hsome
  case admissions =>
    intro a ha
    rw [hmoves.admitted] at ha
    rw [hmoves.handles]
    exact h.admissions a ha
  case ended =>
    intro handle hended
    rw [hmoves.ended] at hended
    obtain ⟨hdrawn, hout, hsettled⟩ := h.ended handle hended
    have hne : handle ≠ f.handle := (hout f hmem).symm
    refine ⟨hmoves.handles ▸ hdrawn, fun k hg => ?_, fun command receipt hreceipt => ?_⟩
    · rw [hmoves.frames] at hg
      rcases List.mem_cons.mp hg with rfl | hg
      · rw [hmoves.handle]
        exact hne.symm
      · exact hout k (hmemRest hg)
    · rw [hmoves.commands handle hne] at hreceipt
      exact hsettled command receipt hreceipt
  case admitted =>
    rw [hmoves.admitted]
    exact h.admitted
  case executed =>
    intro e he
    rw [hmoves.executed] at he
    obtain ⟨haddressed, hadmitted, hreceipt⟩ := h.executed e he
    exact ⟨haddressed, hmoves.admitted ▸ hadmitted, hkept _ _ hreceipt⟩
  case once =>
    rw [hmoves.executed]
    exact h.once
  case order =>
    rw [hmoves.executed]
    exact h.order

/-- The innermost run has ended. -/
theorem Inv.ends (h : Inv s) (hframes : s.frames = f :: rest) (closed : Bool)
    (hmodal : s.modal = rest.map Frame.handle) (hsettled : closed = true → Settled s f.handle) :
    Inv (s.ends f rest closed) := by
  have hrest := h.apart_rest hframes
  have hmemRest {g : Frame} (hg : g ∈ rest) : g ∈ s.frames := hframes ▸ List.mem_cons_of_mem _ hg
  have hnested := h.nested
  rw [hframes] at hnested
  have hapart := h.apart
  rw [hframes, List.map_cons, List.nodup_cons] at hapart
  refine {h with
    frames := fun g hg => (h.frames g (hmemRest hg)).sameAt ⟨rfl, rfl, fun _ _ => .rfl, fun _ _ => .rfl⟩
    nested := hnested.2.2
    modal := ?_
    apart := hapart.2
    drawn := fun g hg => h.drawn g (hmemRest hg)
    ended := ?_
    executed := fun e he => ⟨(h.executed e he).1, (h.executed e he).2, (h.executed e he).3⟩}
  · show s.modal = openModals rest
    cases rest with
    | nil => exact hmodal
    | cons g rest =>
      -- The run below runs code, and has not restored the call's modals.
      have hcode := hnested.2.1 g (List.mem_cons_self ..)
      have hpc : g.pc ≠ .closeUnwind := by
        intro habsurd
        rw [habsurd] at hcode
        cases hcode
      rw [openModals, if_neg hpc]
      exact hmodal
  · intro handle hended
    have hold : handle ∈ s.ended → handle ∈ s.handles ∧ (∀ g ∈ rest, g.handle ≠ handle) ∧
        Settled s handle := by
      intro hended
      obtain ⟨hdrawn, hout, hsettled⟩ := h.ended handle hended
      exact ⟨hdrawn, fun g hg => hout g (hmemRest hg), hsettled⟩
    cases closed with
    | false => exact hold hended
    | true =>
      rcases List.mem_cons.mp hended with rfl | hended
      · exact ⟨h.drawn f (hframes ▸ List.mem_cons_self ..), hrest, hsettled rfl⟩
      · exact hold hended

end

end Agiru.Modal
