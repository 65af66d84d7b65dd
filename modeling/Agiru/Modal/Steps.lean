import Agiru.Modal.Kept

/-! Every step keeps what a call's modals rest on, and so does every run. -/
namespace Agiru.Modal
open Undo

variable {s t : State} {f : Frame} {rest : List Frame}
variable {handle : String}
variable {command : String} {receipt : Receipt}

/-! ### Statements at the tables -/

/-- The tables were written, and no receipt has come or gone. -/
structure Quiet (s t : State) (handle : String) : Prop where
  objects : t.objects = s.objects
  modal : t.modal = s.modal
  frames : t.frames = s.frames
  handles : t.handles = s.handles
  ended : t.ended = s.ended
  admitted : t.admitted = s.admitted
  executed : t.executed = s.executed
  commands : ∀ other, other ≠ handle → t.commands other = s.commands other
  receipts : ∀ command, (t.commands handle command).isSome = (s.commands handle command).isSome

theorem Quiet.refl (s : State) (handle : String) : Quiet s s handle :=
  ⟨rfl, rfl, rfl, rfl, rfl, rfl, rfl, fun _ _ => rfl, fun _ => rfl⟩

theorem setReceipt_other {other : String} (h : other ≠ handle) :
    (s.setReceipt handle command receipt).commands other = s.commands other :=
  Function.update_of_ne h ..

theorem setReceipt_self : (s.setReceipt handle command receipt).commands handle command = some receipt := by
  simp only [State.setReceipt, Function.update_self]

theorem setReceipt_command {other : String} (h : other ≠ command) :
    (s.setReceipt handle command receipt).commands handle other = s.commands handle other := by
  simp only [State.setReceipt, Function.update_self, Function.update_of_ne h]

theorem completeInput_quiet (s : State) (handle : String) (input : PageModalInput)
    (commandPrefix html : String) (failure : Option (String × String)) (closed : Bool) :
    Quiet s (s.completeInput handle input commandPrefix html failure closed).1 handle := by
  unfold State.completeInput
  split
  · exact .refl s handle
  split
  · dsimp only
    split
    · exact ⟨rfl, rfl, rfl, rfl, rfl, rfl, rfl, fun _ _ => rfl, fun _ => rfl⟩
    split
    · rename_i receipt hreceipt hqueued
      refine ⟨rfl, rfl, rfl, rfl, rfl, rfl, rfl, fun other hother => setReceipt_other hother, fun command => ?_⟩
      by_cases heq : command = input.command
      · subst heq
        rw [setReceipt_self, hreceipt]
        rfl
      · rw [setReceipt_command heq]
    · exact ⟨rfl, rfl, rfl, rfl, rfl, rfl, rfl, fun _ _ => rfl, fun _ => rfl⟩
  · exact .refl s handle

theorem closeModalReceipt_quiet (s : State) (handle : String) :
    Quiet s (s.closeModalReceipt handle).1 handle := by
  unfold State.closeModalReceipt
  split
  · exact .refl s handle
  · refine ⟨rfl, rfl, rfl, rfl, rfl, rfl, rfl, fun other hother => Function.update_of_ne hother .., fun command => ?_⟩
    dsimp only
    rw [Function.update_self, Option.isSome_map]

theorem abandoned_ne (receipt : Receipt) : receipt.abandoned.outcome ≠ .queued := by
  unfold Receipt.abandoned
  split
  · nofun
  · assumption

theorem closeModalReceipt_settled (h : (s.closeModalReceipt handle).2 = 1) :
    Settled (s.closeModalReceipt handle).1 handle := by
  intro command receipt hreceipt
  cases hrow : s.modals handle with
  | none =>
    rw [State.closeModalReceipt, hrow] at h
    cases h
  | some row =>
    simp only [State.closeModalReceipt, hrow, Function.update_self, Option.map_eq_some_iff] at hreceipt
    obtain ⟨before, -, rfl⟩ := hreceipt
    exact abandoned_ne before

/-- Whatever came of a statement, it has written to the tables or not. -/
theorem Quiet.kept (h : Quiet s t handle) (kept : Bool) : Quiet s (if kept then t else s) handle := by
  cases kept with
  | false => exact .refl s handle
  | true => exact h

/-! ### Runs that go on -/

theorem FrameOk.goes (h : FrameOk s f) (hquiet : Quiet s t f.handle) (pc : Pc) (rest : List Frame)
    (hwaits : f.pc.waits = true → pc.waits = true) (hstart : ∀ input, pc ≠ .start input)
    (hready : pc.ready = true → f.pc.ready = true) (hpublish : pc ≠ .publish)
    (hrunning : f.published = false → pc = .unwind ∨ pc = .closeUnwind)
    (hopens : pc.opens = true → f.pc.opens = true)
    (hsettled : pc = .restore → Settled t f.handle) : FrameOk (t.goes f rest pc) {f with pc} where
  idle hidle := by
    dsimp only [State.goes] at hidle ⊢
    rw [hquiet.objects] at hidle ⊢
    rw [hquiet.admitted]
    obtain ⟨hpublished, hpc, hinput, hadmitted⟩ := h.idle hidle
    exact ⟨hpublished, hwaits hpc, hinput, hadmitted⟩
  input input hinput := by
    dsimp only [State.goes] at hinput
    rw [hquiet.objects] at hinput
    obtain ⟨hpc, haddressed, hadmitted, hreceipt, hnew⟩ := h.input input hinput
    refine ⟨hwaits hpc, haddressed, ?_, ?_, ?_⟩
    · dsimp only [State.goes]
      rw [hquiet.objects, hquiet.admitted]
      exact hadmitted
    · dsimp only [State.goes]
      rw [hquiet.receipts]
      exact hreceipt
    · dsimp only [State.goes]
      rw [hquiet.executed]
      exact hnew
  start input hpc := absurd hpc (hstart input)
  admitted := by
    dsimp only [State.goes]
    rw [hquiet.objects, hquiet.admitted]
    exact h.admitted
  executed hpc := by
    dsimp only [State.goes]
    rw [hquiet.objects, hquiet.executed]
    exact h.executed (hready hpc)
  unpublished hpublished command := by
    have hnone := hquiet.receipts command
    rw [h.unpublished hpublished command] at hnone
    show t.commands f.handle command = none
    exact Option.isNone_iff_eq_none.mp (by simpa using hnone)
  publish hpc := absurd hpc hpublish
  running hpublished := .inr (hrunning hpublished)
  opens hpc := by
    dsimp only [State.goes]
    rw [hquiet.admitted]
    exact h.opens (hopens hpc)
  settled := hsettled

/-- A step of the innermost run that writes to the tables at most, and leaves the call's modals. -/
theorem Moves.goes (hquiet : Quiet s t f.handle) (hmodal : s.modal = openModals s.frames)
    (hframes : s.frames = f :: rest) {pc : Pc} (hpc : f.pc ≠ .closeUnwind)
    (hpc' : pc ≠ .closeUnwind) : Moves s (t.goes f rest pc) f {f with pc} rest where
  frames := rfl
  handle := rfl
  parent := rfl
  modal := by
    rw [hframes, openModals, if_neg hpc] at hmodal
    rw [openModals, if_neg hpc']
    exact hquiet.modal.trans hmodal
  objects handle _ := congrFun hquiet.objects handle
  commands := hquiet.commands
  kept command hsome := (hquiet.receipts command).trans hsome
  handles := hquiet.handles
  ended := hquiet.ended
  admitted := hquiet.admitted
  executed := hquiet.executed

theorem Inv.goes (h : Inv s) (hframes : s.frames = f :: rest) (hquiet : Quiet s t f.handle) {pc : Pc}
    (hpc : f.pc ≠ .closeUnwind) (hpc' : pc ≠ .closeUnwind)
    (hwaits : f.pc.waits = true → pc.waits = true) (hstart : ∀ input, pc ≠ .start input)
    (hready : pc.ready = true → f.pc.ready = true) (hpublish : pc ≠ .publish)
    (hrunning : f.published = false → pc = .unwind ∨ pc = .closeUnwind)
    (hopens : pc.opens = true → f.pc.opens = true)
    (hsettled : pc = .restore → Settled t f.handle) : Inv (t.goes f rest pc) := by
  have hok : FrameOk s f := h.frames f (hframes ▸ List.mem_cons_self ..)
  apply h.moves hframes (.goes hquiet h.modal hframes hpc hpc')
  exact hok.goes hquiet pc rest hwaits hstart hready hpublish hrunning hopens hsettled

/-- An error is thrown. -/
theorem Inv.throws (h : Inv s) (hframes : s.frames = f :: rest) (hquiet : Quiet s t f.handle)
    (hpc : f.pc ≠ .closeUnwind) : Inv (t.goes f rest .unwind) :=
  h.goes hframes hquiet hpc nofun (fun _ => rfl) nofun nofun nofun (fun _ => .inl rfl) nofun nofun

/-- `Restore`. -/
theorem Inv.restored (h : Inv s) (hframes : s.frames = f :: rest) :
    Inv {s.goes f rest .closeUnwind with modal := f.parent} := by
  have hok : FrameOk s f := h.frames f (hframes ▸ List.mem_cons_self ..)
  have hnested := h.nested
  rw [hframes] at hnested
  have hgoes := hok.goes (.refl s f.handle) .closeUnwind rest
    (fun _ => rfl) nofun nofun nofun (fun _ => .inr rfl) nofun nofun
  refine h.moves hframes (g := {f with pc := .closeUnwind}) ⟨rfl, rfl, rfl, ?_, fun _ _ => rfl,
    fun _ _ => rfl, fun _ hsome => hsome, rfl, rfl, rfl, rfl⟩
    (hgoes.sameAt ⟨rfl, rfl, fun _ _ => .rfl, fun _ _ => .rfl⟩)
  rw [openModals, if_pos rfl]
  exact hnested.1

/-- A run that restores the call's modals as it ends. -/
theorem Inv.restoredEnds (h : Inv s) (hframes : s.frames = f :: rest)
    (hsettled : Settled s f.handle) : Inv {s.ends f rest true with modal := f.parent} := by
  have hnested := h.nested
  rw [hframes] at hnested
  exact (h.restored hframes).ends (f := {f with pc := .closeUnwind}) rfl true hnested.1 fun _ => hsettled

theorem Quiet.settled (hquiet : Quiet s t handle)
    (h : ∀ command, s.commands handle command = none) : Settled t handle := by
  intro command receipt hreceipt
  have hsome := hquiet.receipts command
  rw [hreceipt, h command] at hsome
  cases hsome

/-! ### Opening -/

/-- What the invariant says of the call, and not of its runs. -/
theorem Inv.same (h : Inv s) (hobjects : t.objects = s.objects) (hcommands : t.commands = s.commands)
    (hmodal : t.modal = s.modal) (hframes : t.frames = s.frames) (hhandles : t.handles = s.handles)
    (hadmitted : t.admitted = s.admitted) (hexecuted : t.executed = s.executed)
    (hended : t.ended = s.ended) : Inv t := by
  constructor
  case frames =>
    rw [hframes]
    intro f hf
    apply (h.frames f hf).sameAt
    rw [hframes] at *
    exact ⟨congrFun hobjects _, congrFun hcommands _, fun a _ => by rw [hadmitted],
      fun e _ => by rw [hexecuted]⟩
  case nested => exact hframes ▸ h.nested
  case modal =>
    rw [hmodal, hframes]
    exact h.modal
  case apart => exact hframes ▸ h.apart
  case drawn =>
    rw [hframes, hhandles]
    exact h.drawn
  case commands =>
    rw [hcommands, hhandles]
    exact h.commands
  case admissions =>
    rw [hadmitted, hhandles]
    exact h.admissions
  case ended =>
    intro handle hhandle
    rw [hended] at hhandle
    unfold Settled
    rw [hhandles, hframes, hcommands]
    exact h.ended handle hhandle
  case admitted => exact hadmitted ▸ h.admitted
  case executed =>
    intro e he
    rw [hexecuted] at he
    obtain ⟨haddressed, hin, hreceipt⟩ := h.executed e he
    exact ⟨haddressed, hadmitted ▸ hin, by rw [hcommands]; exact hreceipt⟩
  case once => exact hexecuted ▸ h.once
  case order => exact hexecuted ▸ h.order

theorem Inv.enter (h : Inv s) {commandPrefix : String} (hcode : s.runsCode = true) (hnew : handle ∉ s.handles) :
    Inv {s.setModal handle {commandPrefix} with
      modal := handle :: s.modal
      frames := {handle, parent := s.modal} :: s.frames
      handles := handle :: s.handles} := by
  have hother {f : Frame} (hf : f ∈ s.frames) : f.handle ≠ handle := by
    rintro rfl
    exact hnew (h.drawn f hf)
  have hnone (command : String) : s.commands handle command = none := by
    by_contra hsome
    exact hnew (h.commands handle command hsome)
  have hobject : Function.update s.objects handle {commandPrefix} handle = {commandPrefix} :=
    Function.update_self ..
  have hadmissions (a : Admission) (ha : a ∈ s.admitted) : a.input.modal ≠ handle := by
    rintro rfl
    exact hnew (h.admissions a ha)
  have hruns : s.modal = s.frames.map Frame.handle ∧ ∀ f ∈ s.frames, f.pc.runsCode = true := by
    have hmodal := h.modal
    have hnested := h.nested
    cases hframes : s.frames with
    | nil =>
      rw [hframes] at hmodal
      exact ⟨hmodal, fun f hf => by cases hf⟩
    | cons f rest =>
      rw [hframes] at hmodal hnested
      simp only [State.runsCode, hframes] at hcode
      have hpc : f.pc ≠ .closeUnwind := by
        intro habsurd
        rw [habsurd] at hcode
        cases hcode
      rw [openModals, if_neg hpc] at hmodal
      exact ⟨hmodal, List.forall_mem_cons.mpr ⟨hcode, hnested.2.1⟩⟩
  constructor
  case frames =>
    intro f hf
    rcases List.mem_cons.mp hf with rfl | hf
    · constructor
      case idle =>
        intro hidle
        dsimp only [State.setModal] at hidle
        rw [hobject] at hidle
        cases hidle
      case input =>
        intro input hinput
        dsimp only [State.setModal] at hinput
        rw [hobject] at hinput
        cases hinput
      case start => intro _ hnone; cases hnone
      case admitted => exact fun a ha hmodal => absurd hmodal (hadmissions a ha)
      case executed =>
        intro _ e he hhandle
        obtain ⟨haddressed, hin, -⟩ := h.executed e he
        exact absurd (haddressed.trans hhandle) (hadmissions _ hin)
      case unpublished => exact fun _ => hnone
      case publish => exact fun _ => rfl
      case running => exact fun _ => .inl rfl
      case opens => exact fun _ => hadmissions
      case settled => intro hnone; cases hnone
    · refine (h.frames f hf).sameAt ⟨?_, rfl, fun _ _ => .rfl, fun _ _ => .rfl⟩
      exact Function.update_of_ne (hother hf) ..
  case nested => exact ⟨hruns.1, hruns.2, h.nested⟩
  case modal =>
    rw [openModals, if_neg (by intro hnone; cases hnone)]
    exact congrArg _ hruns.1
  case apart =>
    refine List.nodup_cons.mpr ⟨fun hmem => ?_, h.apart⟩
    obtain ⟨f, hf, heq⟩ := List.mem_map.mp hmem
    exact hother hf heq
  case drawn =>
    intro f hf
    rcases List.mem_cons.mp hf with rfl | hf
    · exact List.mem_cons_self ..
    · exact List.mem_cons_of_mem _ (h.drawn f hf)
  case commands => exact fun other command hsome => List.mem_cons_of_mem _ (h.commands other command hsome)
  case admissions => exact fun a ha => List.mem_cons_of_mem _ (h.admissions a ha)
  case ended =>
    intro other hended
    obtain ⟨hdrawn, hout, hsettled⟩ := h.ended other hended
    refine ⟨List.mem_cons_of_mem _ hdrawn, List.forall_mem_cons.mpr ⟨?_, hout⟩, hsettled⟩
    rintro rfl
    exact hnew hdrawn
  case admitted => exact h.admitted
  case executed => exact fun e he => ⟨(h.executed e he).1, (h.executed e he).2, (h.executed e he).3⟩
  case once => exact h.once
  case order => exact h.order

/-! ### Inputs -/

theorem Inv.innermost (h : Inv s) {outer : List String}
    (hmodal : s.modal = handle :: outer) : ∃ f ∈ s.frames, f.handle = handle := by
  have hin : handle ∈ openModals s.frames := by
    rw [← h.modal, hmodal]
    exact List.mem_cons_self ..
  cases hframes : s.frames with
  | nil =>
    rw [hframes] at hin
    cases hin
  | cons f rest =>
    rw [hframes, openModals] at hin
    split at hin
    · obtain ⟨g, hg, heq⟩ := List.mem_map.mp hin
      exact ⟨g, List.mem_cons_of_mem _ hg, heq⟩
    · rcases List.mem_cons.mp hin with heq | hin
      · exact ⟨f, List.mem_cons_self .., heq.symm⟩
      · obtain ⟨g, hg, heq⟩ := List.mem_map.mp hin
        exact ⟨g, List.mem_cons_of_mem _ hg, heq⟩

theorem Inv.eq_of_handle (h : Inv s) {g : Frame} (hf : f ∈ s.frames) (hg : g ∈ s.frames)
    (heq : g.handle = f.handle) : g = f :=
  List.inj_on_of_nodup_map h.apart hg hf heq

/-- A receipt is queued for a modal that waits for an input. -/
theorem Inv.queue (h : Inv s) (digest : String) (hf : f ∈ s.frames)
    (hidle : (s.objects f.handle).busy = false) (hnew : s.commands f.handle command = none) :
    Inv (s.setReceipt f.handle command ⟨digest, .queued⟩) := by
  have hok := h.frames f hf
  obtain ⟨hpublished, hwaits, -, -⟩ := hok.idle hidle
  have hkept (handle other : String) (hsome : (s.commands handle other).isSome) :
      ((s.setReceipt f.handle command ⟨digest, .queued⟩).commands handle other).isSome := by
    by_cases heq : handle = f.handle
    · subst heq
      by_cases hcommand : other = command
      · subst hcommand
        rw [setReceipt_self]
        rfl
      · rw [setReceipt_command hcommand]
        exact hsome
    · rw [setReceipt_other heq]
      exact hsome
  have hpending {input : PageModalInput} (hp : Pending s f.handle input) :
      Pending (s.setReceipt f.handle command ⟨digest, .queued⟩) f.handle input :=
    ⟨hp.addressed, hp.admitted, hkept _ _ hp.receipt, hp.new⟩
  refine {h with frames := ?_, commands := ?_, ended := ?_, executed := ?_}
  · intro g hg
    by_cases heq : g.handle = f.handle
    · obtain rfl := h.eq_of_handle hf hg heq
      refine {hok with input := ?_, start := ?_, unpublished := ?_, settled := ?_}
      · intro input hinput
        obtain ⟨hpc, hp⟩ := hok.input input hinput
        exact ⟨hpc, hpending hp⟩
      · exact fun input hpc => hpending (hok.start input hpc)
      · intro habsurd
        rw [hpublished] at habsurd
        cases habsurd
      · intro habsurd
        rw [habsurd] at hwaits
        cases hwaits
    · exact (h.frames g hg).sameAt ⟨rfl, setReceipt_other heq, fun _ _ => .rfl, fun _ _ => .rfl⟩
  · intro handle other hsome
    by_cases heq : handle = f.handle
    · rw [heq]
      exact h.drawn f hf
    · rw [setReceipt_other heq] at hsome
      exact h.commands handle other hsome
  · intro handle hended
    obtain ⟨hdrawn, hout, hsettled⟩ := h.ended handle hended
    refine ⟨hdrawn, hout, fun other receipt hreceipt => ?_⟩
    rw [setReceipt_other (hout f hf).symm] at hreceipt
    exact hsettled other receipt hreceipt
  · exact fun e he => ⟨(h.executed e he).1, (h.executed e he).2, hkept _ _ (h.executed e he).3⟩

/-- A modal that waits for an input has it. -/
theorem Inv.takes (h : Inv s) {input : PageModalInput} (hf : f ∈ s.frames)
    (hidle : (s.objects f.handle).busy = false) (haddressed : input.modal = f.handle)
    (hreceipt : (s.commands f.handle input.command).isSome)
    (hnew : ∀ e ∈ s.executed, e.handle = f.handle → e.input.command ≠ input.command) :
    Inv {s.setModal f.handle {s.objects f.handle with input := some input, busy := true} with
      admitted := ⟨(s.objects f.handle).revision, input⟩ :: s.admitted} := by
  have hok := h.frames f hf
  obtain ⟨hpublished, hwaits, -, hfirst⟩ := hok.idle hidle
  have hobject : Function.update s.objects f.handle
      {s.objects f.handle with input := some input, busy := true} f.handle =
      {s.objects f.handle with input := some input, busy := true} := Function.update_self ..
  have hother (a : Admission) (ha : a ≠ ⟨(s.objects f.handle).revision, input⟩) :
      a ∈ (⟨(s.objects f.handle).revision, input⟩ :: s.admitted : List Admission) ↔ a ∈ s.admitted :=
    List.mem_cons.trans (or_iff_right ha)
  refine {h with frames := ?_, admissions := ?_, admitted := ?_, executed := ?_}
  · intro g hg
    by_cases heq : g.handle = f.handle
    · obtain rfl := h.eq_of_handle hf hg heq
      constructor
      case idle =>
        intro habsurd
        dsimp only [State.setModal] at habsurd
        rw [hobject] at habsurd
        cases habsurd
      case input =>
        intro input' hinput
        dsimp only [State.setModal] at hinput ⊢
        rw [hobject] at hinput
        obtain rfl := Option.some.inj hinput
        refine ⟨hwaits, haddressed, ?_, hreceipt, hnew⟩
        dsimp only
        rw [hobject]
        exact List.mem_cons_self ..
      case start =>
        intro input' habsurd
        rw [habsurd] at hwaits
        cases hwaits
      case admitted =>
        intro a ha hmodal
        dsimp only [State.setModal] at ha ⊢
        rw [hobject]
        rcases List.mem_cons.mp ha with rfl | ha
        · exact Nat.le_refl _
        · exact hok.admitted a ha hmodal
      case executed =>
        intro hready e he hhandle
        dsimp only [State.setModal]
        rw [hobject]
        exact hok.executed hready e he hhandle
      case unpublished => exact hok.unpublished
      case publish => exact hok.publish
      case running => exact hok.running
      case opens =>
        intro habsurd
        rw [opens_of_waits hwaits] at habsurd
        cases habsurd
      case settled => exact hok.settled
    · refine (h.frames g hg).sameAt ⟨Function.update_of_ne heq .., rfl, fun a ha => ?_, fun _ _ => .rfl⟩
      refine hother a ?_
      rintro rfl
      exact heq (ha.symm.trans haddressed)
  · intro a ha
    rcases List.mem_cons.mp ha with rfl | ha
    · show input.modal ∈ s.handles
      rw [haddressed]
      exact h.drawn f hf
    · exact h.admissions a ha
  · refine List.nodup_cons.mpr ⟨fun hmem => ?_, h.admitted⟩
    obtain ⟨a, ha, heq⟩ := List.mem_map.mp hmem
    obtain ⟨hmodal, hrevision⟩ := Prod.mk.inj heq
    have hlt := hfirst a ha (hmodal.trans haddressed)
    rw [hrevision] at hlt
    exact Nat.lt_irrefl _ hlt
  · exact fun e he => ⟨(h.executed e he).1, List.mem_cons_of_mem _ (h.executed e he).2, (h.executed e he).3⟩

theorem Inv.accept (h : Inv s) (handle revision : String) (candidate : PageModalInput)
    (fault : Fault) : Inv (s.acceptPageModal handle revision candidate fault).1 := by
  rcases accept_cases s handle revision candidate fault with ⟨hsame, -⟩ | ⟨hadmits, hcase⟩
  · rw [hsame]
    exact h
  obtain ⟨outer, hmodal⟩ := hadmits.innermost
  obtain ⟨f, hf, rfl⟩ := h.innermost hmodal
  have hqueue := h.queue candidate.digest hf hadmits.idle hadmits.new
  rcases hcase with heq | heq
  · rw [heq]
    refine Inv.takes (s := s.setReceipt f.handle _ _) hqueue hf hadmits.idle rfl ?_ fun e he hhandle => ?_
    · rw [setReceipt_self]
      rfl
    · -- An executed command has a receipt, and this one had none.
      intro hcommand
      have hreceipt := (h.executed e he).receipt
      rw [hhandle, hcommand, hadmits.new] at hreceipt
      cases hreceipt
  · rw [heq]
    exact hqueue

end Agiru.Modal
