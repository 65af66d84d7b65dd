import Agiru.Modal.Steps

/-! Modal commands are executed at most once, in order, by the modal they were sent to, and
their receipts say so. -/
namespace Agiru.Modal
open Undo

variable {s t : State} {f : Frame} {rest : List Frame}
variable {input : PageModalInput}

/-! ### The steps that change a modal -/

/-- A step of the innermost run that writes to its modal. -/
theorem Inv.setModal (h : Inv s) (hframes : s.frames = f :: rest) (hquiet : Quiet s t f.handle)
    {pc : Pc} (hpc : f.pc ≠ .closeUnwind) (hpc' : pc ≠ .closeUnwind) (modal : PageModal)
    (hok : FrameOk ((t.goes f rest pc).setModal f.handle modal) {f with pc}) :
    Inv ((t.goes f rest pc).setModal f.handle modal) := by
  have hmoves := Moves.goes hquiet h.modal hframes hpc hpc'
  refine h.moves hframes {hmoves with objects := fun handle hhandle => ?_} hok
  exact (Function.update_of_ne hhandle ..).trans (congrFun hquiet.objects handle)

theorem setModal_object {pc : Pc} {modal : PageModal} :
    ((t.goes f rest pc).setModal f.handle modal).objects f.handle = modal := Function.update_self ..

theorem Inv.publish (h : Inv s) (hframes : s.frames = f :: rest) (hpc : f.pc = .publish)
    (modals : String → Option ModalRow) :
    Inv {s with modals, frames := {f with published := true, pc := .opening} :: rest} := by
  have hok : FrameOk s f := h.frames f (hframes ▸ List.mem_cons_self ..)
  have hbusy := hok.busy (by rw [hpc]; rfl)
  have hinput := hok.noInput (by rw [hpc]; rfl)
  refine h.moves hframes (g := {f with published := true, pc := .opening}) ⟨rfl, rfl, rfl, ?_,
    fun _ _ => rfl, fun _ _ => rfl, fun _ hsome => hsome, rfl, rfl, rfl, rfl⟩ ?_
  · have hmodal := h.modal
    rw [hframes, openModals, if_neg (by rw [hpc]; intro hnone; cases hnone)] at hmodal
    rw [openModals, if_neg (by intro hnone; cases hnone)]
    exact hmodal
  · constructor
    case idle => exact fun hidle => absurd (hbusy.symm.trans hidle) (by intro hnone; cases hnone)
    case input => exact fun input hsome => absurd (hinput.symm.trans hsome) (by intro hnone; cases hnone)
    case start => intro _ hnone; cases hnone
    case admitted => exact hok.admitted
    case executed => exact fun _ => hok.executed (by rw [hpc]; rfl)
    case unpublished => intro hnone; cases hnone
    case publish => intro hnone; cases hnone
    case running => intro hnone; cases hnone
    case opens => exact fun _ => hok.opens (by rw [hpc]; rfl)
    case settled => intro hnone; cases hnone

theorem Inv.snapshot (h : Inv s) (hframes : s.frames = f :: rest) (hpc : f.pc = .snapshot) :
    Inv ((s.goes f rest .wait).setModal f.handle {s.objects f.handle with busy := false}) := by
  have hok : FrameOk s f := h.frames f (hframes ▸ List.mem_cons_self ..)
  have hpublished := hok.isPublished (by rw [hpc]; nofun) (by rw [hpc]; nofun) (by rw [hpc]; nofun)
  have hinput := hok.noInput (by rw [hpc]; rfl)
  have hnone := hok.opens (by rw [hpc]; rfl)
  refine h.setModal hframes (.refl s f.handle) (by rw [hpc]; nofun) ?_ _ ?_
  · nofun
  constructor
  case idle => exact fun _ => ⟨hpublished, rfl, by rw [setModal_object]; exact hinput,
    fun a ha hmodal => absurd hmodal (hnone a ha)⟩
  case input =>
    intro input hsome
    rw [setModal_object] at hsome
    exact absurd (hinput.symm.trans hsome) nofun
  case start => nofun
  case admitted => exact fun a ha hmodal => absurd hmodal (hnone a ha)
  case executed =>
    rw [setModal_object]
    exact fun _ => hok.executed (by rw [hpc]; rfl)
  case unpublished => exact fun habsurd => absurd (hpublished.symm.trans habsurd) nofun
  case publish => nofun
  case running => exact fun habsurd => absurd (hpublished.symm.trans habsurd) nofun
  case opens => nofun
  case settled => nofun

theorem Inv.wait (h : Inv s) (hframes : s.frames = f :: rest) (hpc : f.pc = .wait)
    (hinput : (s.objects f.handle).input = some input) :
    Inv ((s.goes f rest (.start input)).setModal f.handle
      {s.objects f.handle with input := none}) := by
  have hok : FrameOk s f := h.frames f (hframes ▸ List.mem_cons_self ..)
  have hpublished := hok.isPublished (by rw [hpc]; nofun) (by rw [hpc]; nofun) (by rw [hpc]; nofun)
  obtain ⟨haddressed, hadmitted, hreceipt, hnew⟩ := (hok.input input hinput).2
  refine h.setModal hframes (.refl s f.handle) (by rw [hpc]; nofun) ?_ _ ?_
  · nofun
  constructor
  case idle =>
    intro hidle
    rw [setModal_object] at hidle
    exact absurd ((hok.idle hidle).2.2.1.symm.trans hinput) nofun
  case input =>
    intro input hsome
    rw [setModal_object] at hsome
    cases hsome
  case start =>
    rintro input' ⟨⟩
    refine ⟨haddressed, ?_, hreceipt, hnew⟩
    rw [setModal_object]
    exact hadmitted
  case admitted =>
    rw [setModal_object]
    exact hok.admitted
  case executed =>
    rw [setModal_object]
    exact fun _ => hok.executed (by rw [hpc]; rfl)
  case unpublished => exact fun habsurd => absurd (hpublished.symm.trans habsurd) nofun
  case publish => nofun
  case running => exact fun habsurd => absurd (hpublished.symm.trans habsurd) nofun
  case opens => nofun
  case settled => nofun

/-- An input is executed: its command was not, and what was executed before had an earlier
revision. -/
theorem Inv.execute (h : Inv s) (hframes : s.frames = f :: rest) (hpc : f.pc = .start input) :
    Inv {s.goes f rest (.run input) with
      executed := ⟨f.handle, (s.objects f.handle).revision, input⟩ :: s.executed} := by
  have hmem : f ∈ s.frames := hframes ▸ List.mem_cons_self ..
  have hok : FrameOk s f := h.frames f hmem
  obtain ⟨haddressed, hadmitted, hreceipt, hnew⟩ := hok.start input hpc
  have hgoes : Inv (s.goes f rest (.run input)) := by
    have hpublished := hok.isPublished (by rw [hpc]; nofun) (by rw [hpc]; nofun) (by rw [hpc]; nofun)
    refine h.goes hframes (.refl s f.handle) ?_ nofun ?_ nofun nofun nofun ?_ nofun nofun
    · rw [hpc]
      nofun
    · rw [hpc]
      nofun
    · exact fun habsurd => absurd (hpublished.symm.trans habsurd) nofun
  have hold (e : Execution) (hne : e.handle ≠ f.handle) :
      e ∈ (⟨f.handle, (s.objects f.handle).revision, input⟩ :: s.executed : List Execution) ↔
        e ∈ s.executed := by
    refine List.mem_cons.trans (or_iff_right ?_)
    rintro rfl
    exact hne rfl
  have hbusy := hok.busy (by rw [hpc]; rfl)
  have hinput := hok.noInput (by rw [hpc]; rfl)
  refine {hgoes with frames := ?_, executed := ?_, once := ?_, order := ?_}
  · intro g hg
    rcases List.mem_cons.mp hg with rfl | hg
    · refine {hgoes.frames _ (List.mem_cons_self ..) with input := ?_, start := ?_, executed := ?_}
      · exact fun input hsome => absurd (hinput.symm.trans hsome) nofun
      · nofun
      · nofun
    · have hne := h.apart_rest hframes g hg
      refine (hgoes.frames g (List.mem_cons_of_mem _ hg)).sameAt
        ⟨rfl, rfl, fun _ _ => .rfl, fun e he => hold e ?_⟩
      rw [he]
      exact hne
  · intro e he
    rcases List.mem_cons.mp he with rfl | he
    · exact ⟨haddressed, hadmitted, hreceipt⟩
    · exact ⟨(h.executed e he).1, (h.executed e he).2, (h.executed e he).3⟩
  · refine List.nodup_cons.mpr ⟨fun hin => ?_, h.once⟩
    obtain ⟨e, he, heq⟩ := List.mem_map.mp hin
    obtain ⟨hhandle, hcommand⟩ := Prod.mk.inj heq
    exact hnew e he hhandle hcommand
  · refine .cons (fun e he hhandle => ?_) h.order
    exact hok.executed (by rw [hpc]; rfl) e he hhandle.symm

theorem Inv.complete (h : Inv s) (hframes : s.frames = f :: rest) (hquiet : Quiet s t f.handle)
    {failure : Option (String × String)} {closed : Bool}
    {commandPrefix : String} (hpc : f.pc = .complete input failure closed) :
    Inv ((t.goes f rest (if closed then .close else .wait)).setModal f.handle
      {s.objects f.handle with
        revision := (s.objects f.handle).revision + 1
        commandPrefix
        busy := closed}) := by
  have hok : FrameOk s f := h.frames f (hframes ▸ List.mem_cons_self ..)
  have hpublished := hok.isPublished (by rw [hpc]; nofun) (by rw [hpc]; nofun) (by rw [hpc]; nofun)
  have hinput := hok.noInput (by rw [hpc]; rfl)
  have hadmitted (a : Admission) (ha : a ∈ t.admitted) (hmodal : a.input.modal = f.handle) :
      a.revision < (s.objects f.handle).revision + 1 := by
    rw [hquiet.admitted] at ha
    exact Nat.lt_succ_of_le (hok.admitted a ha hmodal)
  refine h.setModal hframes hquiet (by rw [hpc]; nofun) (by cases closed <;> nofun) _ ?_
  constructor
  case idle =>
    intro hidle
    rw [setModal_object] at hidle ⊢
    obtain rfl : closed = false := hidle
    exact ⟨hpublished, rfl, hinput, hadmitted⟩
  case input =>
    intro input hsome
    rw [setModal_object] at hsome
    exact absurd (hinput.symm.trans hsome) nofun
  case start => cases closed <;> nofun
  case admitted =>
    rw [setModal_object]
    exact fun a ha hmodal => Nat.le_of_lt (hadmitted a ha hmodal)
  case executed =>
    intro _ e he hhandle
    rw [setModal_object]
    change e ∈ t.executed at he
    rw [hquiet.executed] at he
    obtain ⟨haddressed, hin, -⟩ := h.executed e he
    rw [← hquiet.admitted] at hin
    exact hadmitted _ hin (haddressed.trans hhandle)
  case unpublished => exact fun habsurd => absurd (hpublished.symm.trans habsurd) nofun
  case publish => cases closed <;> nofun
  case running => exact fun habsurd => absurd (hpublished.symm.trans habsurd) nofun
  case opens => cases closed <;> nofun
  case settled => cases closed <;> nofun

/-- A statement after `Restore`. -/
theorem Inv.closing (h : Inv s) (hframes : s.frames = f :: rest) (hpc : f.pc = .closeUnwind)
    (hquiet : Quiet s t f.handle) : Inv t ∧ t.frames = f :: rest ∧ t.modal = rest.map Frame.handle := by
  have hok : FrameOk s f := h.frames f (hframes ▸ List.mem_cons_self ..)
  have hmodal := hquiet.modal.trans h.modal
  rw [hframes] at hmodal
  have hgoes := hok.goes hquiet f.pc rest id (by rw [hpc]; nofun) id
    (by rw [hpc]; nofun) (fun _ => .inr hpc) id (by rw [hpc]; nofun)
  refine ⟨?_, hquiet.frames.trans hframes, hmodal.trans (if_pos hpc)⟩
  refine h.moves hframes ⟨hquiet.frames.trans hframes, rfl, rfl, hmodal,
    fun handle _ => congrFun hquiet.objects handle, hquiet.commands,
    fun command hsome => (hquiet.receipts command).trans hsome, hquiet.handles, hquiet.ended,
    hquiet.admitted, hquiet.executed⟩ ?_
  exact hgoes.sameAt ⟨rfl, rfl, fun _ _ => .rfl, fun _ _ => .rfl⟩

/-! ### Every run -/

theorem Inv.step (h : Inv s) {action : Action} (hstep : Step s action t) : Inv t := by
  have htop {f : Frame} {rest : List Frame} (hframes : s.frames = f :: rest) : FrameOk s f :=
    h.frames f (hframes ▸ List.mem_cons_self ..)
  have hpublished {f : Frame} {rest : List Frame} (hframes : s.frames = f :: rest) {pc pc' : Pc}
      (hpc : f.pc = pc) (hpublish : pc ≠ .publish) (hunwind : pc ≠ .unwind)
      (hclose : pc ≠ .closeUnwind) (habsurd : f.published = false) :
      pc' = .unwind ∨ pc' = .closeUnwind := by
    subst hpc
    exact absurd (((htop hframes).isPublished hpublish hunwind hclose).symm.trans habsurd) nofun
  cases hstep with
  | accept handle revision input fault => exact h.accept handle revision input fault
  | expire | cancel | finish | ask => exact h.same rfl rfl rfl rfl rfl rfl rfl rfl
  | enter handle commandPrefix hcode hnew => exact h.enter hcode hnew
  | publish f rest hframes hpc => exact h.publish hframes hpc _
  | publishFails f rest kept hframes hpc =>
    refine Inv.same (s := s.goes f rest .unwind) ?_ rfl rfl rfl rfl rfl rfl rfl rfl
    exact h.throws hframes (.refl s f.handle) (by rw [hpc]; nofun)
  | opened f rest hframes hpc =>
    refine h.goes hframes (.refl s f.handle) ?_ nofun ?_ nofun ?_ nofun
      (hpublished hframes hpc nofun nofun nofun) ?_ nofun
    · rw [hpc]
      nofun
    · rw [hpc]
      nofun
    · exact fun _ => by rw [hpc]; rfl
    · exact fun _ => by rw [hpc]; rfl
  | snapshot f rest hframes hpc => exact h.snapshot hframes hpc
  | wait f rest input hframes hpc hcall hinput => exact h.wait hframes hpc hinput
  | execute f rest input hframes hpc => exact h.execute hframes hpc
  | executed f rest input failure closed hframes hpc =>
    refine h.goes hframes (.refl s f.handle) ?_ nofun ?_ nofun nofun nofun
      (hpublished hframes hpc nofun nofun nofun) nofun nofun
    · rw [hpc]
      nofun
    · rw [hpc]
      nofun
  | complete f rest input failure closed commandPrefix html hframes hpc =>
    exact h.complete hframes (completeInput_quiet ..) hpc
  | completeFails f rest input failure closed commandPrefix html kept hframes hpc =>
    exact h.throws hframes ((completeInput_quiet ..).kept kept) (by rw [hpc]; nofun)
  | close f rest hframes hpc hclosed =>
    refine h.goes hframes (closeModalReceipt_quiet ..) ?_ nofun ?_ nofun nofun nofun
      (hpublished hframes hpc nofun nofun nofun) nofun fun _ => closeModalReceipt_settled hclosed
    · rw [hpc]
      nofun
    · rw [hpc]
      nofun
  | closeFails f rest kept hframes hpc =>
    exact h.throws hframes ((closeModalReceipt_quiet ..).kept kept) (by rw [hpc]; nofun)
  | restore f rest hframes hpc => exact h.restoredEnds hframes ((htop hframes).settled hpc)
  | throw f rest hframes hpc =>
    refine h.throws hframes (.refl s f.handle) ?_
    intro habsurd
    rw [habsurd] at hpc
    cases hpc
  | unwind f rest hframes hpc => exact h.restored hframes
  | unwound f rest hframes hpc hunpublished =>
    refine h.restoredEnds hframes (Quiet.settled (.refl s f.handle) ?_)
    exact (htop hframes).unpublished hunpublished
  | closeUnwind f rest hframes hpc hclosed =>
    obtain ⟨hinv, hframes', hmodal⟩ := h.closing hframes hpc (closeModalReceipt_quiet ..)
    exact hinv.ends hframes' true hmodal fun _ => closeModalReceipt_settled hclosed
  | closeUnwindFails f rest kept hframes hpc =>
    obtain ⟨hinv, hframes', hmodal⟩ := h.closing hframes hpc ((closeModalReceipt_quiet ..).kept kept)
    exact hinv.ends hframes' false hmodal nofun

theorem Reached.inv (h : Reached s) : Inv s := by
  apply Reachable.invariant (I := Inv) _ _ h
  · rintro s rfl
    exact .initial
  · rintro s t hs ⟨action, hstep⟩
    exact hs.step hstep

/-! ### Receipts -/

/-- What a step may do to a receipt: a processed one is processed as its modal's revision goes
on by one. -/
inductive Advances (s t : State) (handle : String) : Receipt → Receipt → Prop
  | same (receipt) : Advances s t handle receipt receipt
  | processed (digest html row row') (hrow : s.modals handle = some row)
      (hrow' : t.modals handle = some row') (hrevision : row'.revision = row.revision + 1) :
      Advances s t handle ⟨digest, .queued⟩ ⟨digest, .processed html⟩
  | failed (digest html code text) :
      Advances s t handle ⟨digest, .queued⟩ ⟨digest, .failed html code text⟩

/-- The receipts of a state, after a step: they stay, and a new one is queued. -/
structure Receipts (s t : State) : Prop where
  advances : ∀ handle command receipt, s.commands handle command = some receipt →
    ∃ receipt', t.commands handle command = some receipt' ∧ Advances s t handle receipt receipt'
  queued : ∀ handle command receipt, s.commands handle command = none →
    t.commands handle command = some receipt → receipt.outcome = .queued

theorem Receipts.of_commands (h : t.commands = s.commands) : Receipts s t := by
  refine ⟨fun handle command receipt hreceipt => ⟨receipt, h ▸ hreceipt, .same receipt⟩,
    fun handle command receipt hnone hsome => ?_⟩
  rw [h, hnone] at hsome
  cases hsome

theorem Receipts.setReceipt {handle command : String} {receipt : Receipt}
    (hnew : ∀ before, s.commands handle command = some before → Advances s t handle before receipt)
    (hqueued : s.commands handle command = none → receipt.outcome = .queued)
    (ht : t.commands = (s.setReceipt handle command receipt).commands) : Receipts s t := by
  have hother {handle' command' : String} (hne : ¬ (handle' = handle ∧ command' = command)) :
      t.commands handle' command' = s.commands handle' command' := by
    rw [ht]
    by_cases hhandle : handle' = handle
    · subst hhandle
      exact setReceipt_command fun heq => hne ⟨rfl, heq⟩
    · rw [setReceipt_other hhandle]
  refine ⟨fun handle' command' before hbefore => ?_, fun handle' command' after hnone hafter => ?_⟩
  · by_cases hsame : handle' = handle ∧ command' = command
    · obtain ⟨rfl, rfl⟩ := hsame
      exact ⟨receipt, by rw [ht]; exact setReceipt_self, hnew before hbefore⟩
    · exact ⟨before, (hother hsame).trans hbefore, .same before⟩
  · by_cases hsame : handle' = handle ∧ command' = command
    · obtain ⟨rfl, rfl⟩ := hsame
      rw [ht, setReceipt_self] at hafter
      obtain rfl := Option.some.inj hafter
      exact hqueued hnone
    · rw [hother hsame, hnone] at hafter
      cases hafter

theorem completeInput_receipts (s : State) (handle : String) (input : PageModalInput)
    (commandPrefix html : String) (failure : Option (String × String)) (closed : Bool) :
    Receipts s (s.completeInput handle input commandPrefix html failure closed).1 := by
  unfold State.completeInput
  split
  · exact .of_commands rfl
  rename_i row hrow
  split
  · dsimp only
    split
    · exact .of_commands rfl
    rename_i receipt hreceipt
    split
    · rename_i hqueued
      simp only [Bool.and_eq_true, decide_eq_true_eq] at hqueued
      refine Receipts.setReceipt (fun before hbefore => ?_) (fun hnone => ?_) rfl
      · obtain rfl := Option.some.inj (hreceipt.symm.trans hbefore)
        obtain ⟨digest, outcome⟩ := receipt
        obtain rfl : outcome = .queued := hqueued.2
        cases failure with
        | none =>
          exact .processed digest html row
            {row with revision := row.revision + 1, commandPrefix, active := !closed} hrow
            (Function.update_self ..) rfl
        | some failure => exact .failed digest html failure.1 failure.2
      · rw [hreceipt] at hnone
        cases hnone
    · exact .of_commands rfl
  · exact .of_commands rfl

theorem abandoned_advances (handle : String) (receipt : Receipt) :
    Advances s t handle receipt receipt.abandoned := by
  obtain ⟨digest, outcome⟩ := receipt
  unfold Receipt.abandoned
  split
  · rename_i hqueued
    obtain rfl : outcome = .queued := hqueued
    exact .failed digest _ _ _
  · exact .same _

theorem closeModalReceipt_receipts (s : State) (handle : String) :
    Receipts s (s.closeModalReceipt handle).1 := by
  cases hrow : s.modals handle with
  | none =>
    rw [State.closeModalReceipt, hrow]
    exact .of_commands rfl
  | some row =>
    rw [State.closeModalReceipt, hrow]
    refine ⟨fun handle' command receipt hreceipt => ?_, fun handle' command receipt hnone hsome => ?_⟩
    · by_cases heq : handle' = handle
      · subst heq
        refine ⟨receipt.abandoned, ?_, abandoned_advances handle' receipt⟩
        dsimp only
        rw [Function.update_self, hreceipt]
        rfl
      · refine ⟨receipt, ?_, .same receipt⟩
        dsimp only
        rw [Function.update_of_ne heq]
        exact hreceipt
    · dsimp only at hsome
      by_cases heq : handle' = handle
      · subst heq
        rw [Function.update_self, hnone] at hsome
        cases hsome
      · rw [Function.update_of_ne heq, hnone] at hsome
        cases hsome

theorem Receipts.kept (h : Receipts s t) (kept : Bool) : Receipts s (if kept then t else s) := by
  cases kept with
  | false => exact .of_commands rfl
  | true => exact h

theorem accept_receipts (s : State) (handle revision : String) (candidate : PageModalInput)
    (fault : Fault) : Receipts s (s.acceptPageModal handle revision candidate fault).1 := by
  rcases accept_cases s handle revision candidate fault with ⟨hsame, -⟩ | ⟨hadmits, hcase⟩
  · rw [hsame]
    exact .of_commands rfl
  · have hnone {before : Receipt} (hbefore : s.commands handle candidate.command = some before) :
        False := absurd (hadmits.new.symm.trans hbefore) nofun
    rcases hcase with heq | heq
    · rw [heq]
      exact .setReceipt (fun before hbefore => (hnone hbefore).elim) (fun _ => rfl) rfl
    · rw [heq]
      exact .setReceipt (fun before hbefore => (hnone hbefore).elim) (fun _ => rfl) rfl

theorem Receipts.of_eq {u : State} (h : Receipts s t) (hcommands : u.commands = t.commands)
    (hmodals : u.modals = t.modals) : Receipts s u := by
  refine ⟨fun handle command receipt hreceipt => ?_, fun handle command receipt hnone hsome => ?_⟩
  · obtain ⟨receipt', hreceipt', hadvances⟩ := h.advances handle command receipt hreceipt
    refine ⟨receipt', hcommands ▸ hreceipt', ?_⟩
    cases hadvances with
    | same => exact .same _
    | processed digest html row row' hrow hrow' hrevision =>
      exact .processed digest html row row' hrow (hmodals ▸ hrow') hrevision
    | failed digest html code text => exact .failed digest html code text
  · exact h.queued handle command receipt hnone (hcommands ▸ hsome)

theorem Step.receipts {action : Action} (hstep : Step s action t) : Receipts s t := by
  cases hstep with
  | accept handle revision input fault => exact accept_receipts s handle revision input fault
  | complete f rest input failure closed commandPrefix html hframes hpc =>
    exact (completeInput_receipts s f.handle input commandPrefix html failure closed).of_eq rfl rfl
  | completeFails f rest input failure closed commandPrefix html kept hframes hpc =>
    exact ((completeInput_receipts s f.handle input commandPrefix html failure closed).kept kept).of_eq
      rfl rfl
  | close f rest hframes hpc => exact (closeModalReceipt_receipts s f.handle).of_eq rfl rfl
  | closeFails f rest kept hframes hpc =>
    exact ((closeModalReceipt_receipts s f.handle).kept kept).of_eq rfl rfl
  | closeUnwind f rest hframes hpc => exact (closeModalReceipt_receipts s f.handle).of_eq rfl rfl
  | closeUnwindFails f rest kept hframes hpc =>
    exact ((closeModalReceipt_receipts s f.handle).kept kept).of_eq rfl rfl
  | _ => exact .of_commands rfl

/-! ### Repeated commands -/

/-- A command that has a receipt is answered by it, and nothing is done. -/
theorem accept_repeated {handle revision : String} {candidate : PageModalInput} {fault : Fault}
    {receipt : Receipt} (hreplay : s.replay handle candidate.command = some receipt)
    (hfault : fault ≠ .select) :
    s.acceptPageModal handle revision candidate fault =
      (s, if receipt.payloadDigest = candidate.digest then receipt.outcome.answer
        else .refused "PageHostReplay") := by
  simp only [State.acceptPageModal, if_neg hfault, hreplay, replayInput, ne_eq, ite_not]

/-! ### Exits -/

/-- The call's modals, as a run ends. -/
structure Exits (s t : State) (f : Frame) (closed : Bool) : Prop where
  frames : s.frames = f :: t.frames
  modal : t.modal = f.parent
  ended : closed = true → f.handle ∈ t.ended

theorem Inv.exits (h : Inv s) {closed : Bool} (hstep : Step s (.exit f closed) t) :
    Exits s t f closed := by
  cases hstep with
  | restore f rest hframes | unwound f rest hframes => exact ⟨hframes, rfl, fun _ => List.mem_cons_self ..⟩
  | closeUnwind f rest hframes hpc =>
    have hnested := h.nested
    rw [hframes] at hnested
    have hmodal := (h.closing hframes hpc (closeModalReceipt_quiet ..)).2.2
    exact ⟨hframes, hmodal.trans hnested.1.symm, fun _ => List.mem_cons_self ..⟩
  | closeUnwindFails f rest kept hframes hpc =>
    have hnested := h.nested
    rw [hframes] at hnested
    have hmodal := (h.closing hframes hpc ((closeModalReceipt_quiet ..).kept kept)).2.2
    exact ⟨hframes, hmodal.trans hnested.1.symm, nofun⟩

/-- Modal commands are executed at most once and in order, whatever the interleaving. -/
theorem modal_commands_once (h : Reached s) :
    (s.admitted.map fun a => (a.input.modal, a.revision)).Nodup ∧
    (s.executed.map fun e => (e.handle, e.input.command)).Nodup ∧
    (s.executed.Pairwise fun later earlier => later.handle = earlier.handle →
      earlier.revision < later.revision) ∧
    (∀ e ∈ s.executed, e.input.modal = e.handle ∧ ⟨e.revision, e.input⟩ ∈ s.admitted) ∧
    (∀ handle ∈ s.ended, Settled s handle) ∧
    (∀ action t, Step s action t → Receipts s t) ∧
    (∀ handle revision candidate fault receipt, s.replay handle candidate.command = some receipt →
      fault ≠ .select → s.acceptPageModal handle revision candidate fault =
        (s, if receipt.payloadDigest = candidate.digest then receipt.outcome.answer
          else .refused "PageHostReplay")) ∧
    ∀ f closed t, Step s (.exit f closed) t → Exits s t f closed := by
  have hinv := h.inv
  refine ⟨hinv.admitted, hinv.once, hinv.order, fun e he => ?_, fun handle hended => ?_,
    fun action t => Step.receipts, fun handle revision candidate fault receipt => accept_repeated,
    fun f closed t => hinv.exits⟩
  · exact ⟨(hinv.executed e he).1, (hinv.executed e he).2⟩
  · exact (hinv.ended handle hended).2.2

/-! ### A modal with two commands -/

theorem Reached.next (h : Reached s) {action : Action} (hstep : Step s action t) : Reached t :=
  h.step ⟨action, hstep⟩

/-- A modal that waits for a command. -/
def waiting : State :=
  let published := {State.initial.setModal "m" {commandPrefix := "p"} with
    modals := Function.update State.initial.modals "m" (some {commandPrefix := "p"})}
  {published.setModal "m" {published.objects "m" with busy := false} with
    modal := ["m"]
    frames := [⟨"m", [], true, .wait⟩]
    handles := ["m"]}

theorem waiting_reached : Reached waiting := by
  have hinitial : Reached .initial := ⟨_, rfl, .refl⟩
  have hentered := hinitial.next (.enter "m" "p" rfl (by nofun) ⟨rfl, rfl, rfl⟩)
  have hpublished := hentered.next (.publish _ _ rfl rfl)
  have hopened := hpublished.next (.opened _ _ rfl rfl)
  have hwaiting := hopened.next (.snapshot _ _ rfl rfl)
  exact hwaiting

def saving : PageModalInput := ⟨"", "p_1", "action", "$agiru.save", "", "d"⟩

/-- The modal with a command that is not yet executed. -/
def commanded : State := waiting.takes "m" {saving with modal := "m"}

theorem waiting_accepts :
    waiting.acceptPageModal "m" "0" saving .none = (commanded, .fresh) := by
  rfl

theorem commanded_reached : Reached commanded := by
  have haccepted := waiting_reached.next (.accept "m" "0" saving .none)
  rw [waiting_accepts] at haccepted
  exact haccepted

def closing : PageModalInput := ⟨"", "q_1", "action", "$agiru.close", "", "e"⟩

/-- The command is sent again while it runs and behind it; then another one is sent and runs. -/
theorem commands_executed : ∃ s : State, s.executed.map (fun e => e.input.command) = ["q_1", "p_1"] ∧
    (s.executed.map fun e => (e.handle, e.input.command)).Nodup := by
  have h := commanded_reached.next (.wait _ _ {saving with modal := "m"} rfl rfl rfl rfl)
  have h := h.next (.execute _ _ _ rfl rfl (by decide))
  have h := h.next (.accept "m" "0" saving .none)
  have h := h.next (.executed _ _ _ none false rfl rfl (.inl rfl))
  have h := h.next (.complete _ _ _ none false "q" "" rfl rfl rfl)
  have h := h.next (.accept "m" "0" saving .none)
  have h := h.next (.accept "m" "1" closing .none)
  have h := h.next (.wait _ _ {closing with modal := "m"} rfl rfl rfl rfl)
  have h := h.next (.execute _ _ _ rfl rfl (by decide))
  exact ⟨_, rfl, (modal_commands_once h).2.1⟩

/-- A run that ends without its database leaves a receipt queued; and a repeated command is
refused once its modal's row has expired, though it has its receipt. -/
theorem receipt_left_queued :
    (∃ (s : State) (f : Frame) (t : State), Reached s ∧ Step s (.exit f false) t ∧
      t.commands f.handle "p_1" = some ⟨"d", .queued⟩) ∧
    ∃ s : State, Reached s ∧ s.commands "m" saving.command = some ⟨saving.digest, .queued⟩ ∧
      (s.acceptPageModal "m" "0" saving .none).2 = .refused "PageHostModalStale" := by
  have hcancelled := commanded_reached.next .cancel
  have hthrown := hcancelled.next (.throw _ _ rfl rfl)
  have hrestored := hthrown.next (.unwind _ _ rfl rfl rfl)
  have hexpired := commanded_reached.next (.expire "m" {commandPrefix := "p"} rfl)
  exact ⟨⟨_, _, _, hrestored, .closeUnwindFails _ _ false rfl rfl, rfl⟩, _, hexpired, rfl, rfl⟩

end Agiru.Modal
