import Agiru.Page.Receipts

/-! Runs of a page context: every statement of `Write` keeps the invariant, and what follows for
the commands, their receipts and their clients. -/
namespace Agiru.Page
open Undo
variable {Body Html Change : Type} {parse : Body → Option Values} {digest : Body → String}
  {s t : State Body Html Change}
variable {db : Database Html Change}
variable {command : String}

/-! ### One statement -/

theorem Inv.start (csrf commandPrefix : String) :
    Inv parse digest ({context := {csrf, commandPrefix}} : State Body Html Change) := by
  refine ⟨⟨nofun, .nil, nofun, nofun, nofun, nofun, nofun, ?_, rfl, nofun⟩, rfl, fun _ => rfl⟩
  intro command html pageId
  constructor
  · rintro ⟨⟩
  · rintro ⟨transaction, ⟨⟩, -⟩

theorem setOutcome_started {payloadDigest : String}
    (h : db.receipts command = some ⟨payloadDigest, .started⟩) (outcome : Outcome Html) :
    db.setOutcome command outcome =
      {db with receipts := Function.update db.receipts command (some ⟨payloadDigest, outcome⟩)} := by
  simp [Database.setOutcome, h]

theorem Records.failed {invalid : Bool} {executed : List String}
    {commits : List (Transaction Html Change)} {responses : List (Response Body Html)}
    (h : Records parse digest invalid db executed commits responses) {payloadDigest : String}
    (hreceipt : db.receipts command = some ⟨payloadDigest, .started⟩) :
    Records parse digest invalid (db.setOutcome command .failed) executed commits responses := by
  obtain ⟨body, hasks, hdigest⟩ := h.digests command _ hreceipt
  rw [setOutcome_started hreceipt]
  exact h.receipt (by simp [Database.outcome, hreceipt]) (by simp) ⟨body, hasks, hdigest⟩

/-- The records of a context that was closed. -/
theorem Inv.closed (h : Inv parse digest s) (hinvalid : s.context.invalid = true) :
    Records parse digest true s.database s.executed s.commits s.responses := by
  have hrecords := h.records
  rw [hinvalid] at hrecords
  exact hrecords

/-- A command has ended badly: the request is answered, the context stays closed. -/
theorem Inv.ended (h : Records parse digest true db s.executed s.commits s.responses) (hpending : s.pending = [])
    (hinvalid : s.context.invalid = true) (body : Body) (answer : Answer Html)
    (hanswer : answer ∈ [.failed, .unknown]) :
    Inv parse digest ({s with database := db}.answer ⟨body, none, true, answer⟩) := by
  refine ⟨?_, hpending, fun hvalid => ?_⟩
  · show Records parse digest s.context.invalid _ _ _ _
    rw [hinvalid]
    exact h.answer (Told.ended body hanswer)
  · cases hinvalid.symm.trans hvalid

/-- **What one statement keeps.** -/
theorem Inv.step (h : Inv parse digest s) (hstep : Step parse digest s t) : Inv parse digest t := by
  have hstatement := h.statement
  cases hstep with
  | refuse body answer hpc hanswer =>
    rw [hpc] at hstatement
    exact ⟨h.records.answer (Told.refused body _ hanswer), hstatement⟩
  | own body values hpc hparse howned hcsrf =>
    rw [hpc] at hstatement
    exact ⟨h.records, hstatement.1, howned.valid, hstatement.2 howned.valid, hparse⟩
  | leave body values answer hpc hanswer =>
    rw [hpc] at hstatement
    exact ⟨h.records.answer (Told.refused body _ hanswer), hstatement.1, fun _ => hstatement.2.2.1⟩
  | found body values html pageId hpc hreceipt =>
    rw [hpc] at hstatement
    obtain ⟨hpending, hvalid, hlevel, hparse⟩ := hstatement
    exact ⟨h.records, hpending, hvalid, hlevel, ⟨values, hparse, rfl⟩, hreceipt⟩
  | replay body command html pageId hpc howned =>
    rw [hpc] at hstatement
    obtain ⟨hpending, hvalid, hlevel, hasks, hreceipt⟩ := hstatement
    refine ⟨h.records.answer ⟨(by intro hnone; cases hnone), (by intro hnone; cases hnone), ?_, ?_⟩, hpending,
        fun _ => hlevel⟩
    · rintro receipt ⟨⟩
      exact ⟨rfl, by rintro html' ⟨⟩; exact ⟨pageId, rfl⟩⟩
    · rintro html' ⟨⟩
      exact ⟨command, pageId, hasks, hreceipt⟩
  | leaveReplay body command html pageId answer hpc hanswer =>
    rw [hpc] at hstatement
    exact ⟨h.records.answer (Told.refused body _ hanswer), hstatement.1, fun _ => hstatement.2.2.1⟩
  | receive body values hpc hreceipt hrevision hissued =>
    rw [hpc] at hstatement
    obtain ⟨hpending, hvalid, hlevel, hparse⟩ := hstatement
    exact ⟨h.records, hpending, hvalid, hlevel, ⟨values, hparse, rfl⟩, hreceipt⟩
  | insert body command hpc =>
    rw [hpc] at hstatement
    obtain ⟨hpending, hvalid, hlevel, hasks, hreceipt⟩ := hstatement
    refine ⟨h.records.receipt (by simp [Database.outcome, hreceipt]) (by simp) ⟨body, hasks, rfl⟩,
      hpending, ?_, hvalid, hlevel, hasks, Function.update_self ..⟩
    intro hmem
    have hsome := h.records.admitted command hmem
    rw [hreceipt] at hsome
    cases hsome
  | insertFails body command kept answer hpc hanswer =>
    rw [hpc] at hstatement
    obtain ⟨hpending, hvalid, hlevel, hasks, hreceipt⟩ := hstatement
    cases kept with
    | false =>
      exact ⟨h.records.answer (Told.refused body _ hanswer), hpending, fun _ => hlevel⟩
    | true =>
      have hrecords := h.records.receipt (by simp [Database.outcome, hreceipt])
        (show ∀ html pageId, (⟨digest body, .started⟩ : Receipt Html).outcome ≠
          .complete html pageId by simp) ⟨body, hasks, rfl⟩
      exact ⟨hrecords.answer (Told.refused body _ hanswer), hpending, fun _ => hlevel⟩
  | attach body command hpc howned =>
    rw [hpc] at hstatement
    obtain ⟨hpending, hnew, hworking⟩ := hstatement
    refine ⟨h.records.execute hnew (by rw [hworking.started]; rfl), ⟨[], hpending⟩, List.mem_cons_self, ?_⟩
    exact ⟨hworking.valid, hworking.level, hworking.asks, hworking.started⟩
  | change body command change hpc =>
    rw [hpc] at hstatement
    obtain ⟨hplain, hmem, hworking⟩ := hstatement
    refine ⟨h.records, ?_⟩
    show holdsAt _ _ _ s.pc
    rw [hpc]
    exact ⟨hplain.append change, hmem, hworking.valid, hworking.level, hworking.asks, hworking.started⟩
  | rollback body command kept hpc hkept =>
    rw [hpc] at hstatement
    obtain ⟨hplain, hmem, hworking⟩ := hstatement
    refine ⟨h.records, ?_⟩
    show holdsAt _ _ _ s.pc
    rw [hpc]
    exact ⟨hplain.of_isPrefix hkept, hmem, hworking.valid, hworking.level, hworking.asks, hworking.started⟩
  | commit body command hpc =>
    rw [hpc] at hstatement
    obtain ⟨hplain, hmem, hworking⟩ := hstatement
    have hrecords := h.records.commitPlain hplain hmem
    obtain ⟨data, hdata⟩ := hplain
    have hdb := Database.commit_plain s.database data
    rw [← hdata] at hdb
    refine ⟨hrecords, ?_⟩
    show holdsAt _ _ _ s.pc
    rw [hpc]
    refine ⟨⟨[], rfl⟩, hmem, hworking.valid, ?_, hworking.asks, ?_⟩
    · simpa [State.settle, hdb] using hworking.level
    · simpa [State.settle, hdb] using hworking.started
  | commitFails body command kept hpc =>
    rw [hpc] at hstatement
    obtain ⟨hplain, hmem, hworking⟩ := hstatement
    cases kept with
    | false => exact ⟨h.records.close, rfl, rfl⟩
    | true => exact ⟨(h.records.commitPlain hplain hmem).close, rfl, rfl⟩
  | count body command commandPrefix hpc hbound =>
    rw [hpc] at hstatement
    obtain ⟨hplain, hmem, hworking⟩ := hstatement
    exact ⟨h.records, hplain, hmem, hworking.valid, congrArg (· + 1) hworking.level, hworking.asks, hworking.started⟩
  | render body command html pageId hpc =>
    rw [hpc] at hstatement
    obtain ⟨hplain, hmem, hworking⟩ := hstatement
    exact ⟨h.records, hplain, hmem, hworking.valid, hworking.level, hworking.asks, hworking.started⟩
  | updateRevision body command html pageId hpc hrevision =>
    rw [hpc] at hstatement
    obtain ⟨⟨data, hdata⟩, hmem, hworking⟩ := hstatement
    refine ⟨h.records, ⟨data, ?_⟩, hmem, hworking.valid, hworking.level, hworking.asks, hworking.started⟩
    exact congrArg (· ++ _) hdata
  | complete body command html pageId hpc =>
    rw [hpc] at hstatement
    obtain ⟨⟨data, hdata⟩, hmem, hworking⟩ := hstatement
    refine ⟨h.records, ⟨data, ?_⟩, hmem, hworking.valid, hworking.level, hworking.asks, hworking.started⟩
    show s.pending ++ _ = _
    rw [hdata, List.append_assoc]
    rfl
  | keep body command html pageId hpc =>
    rw [hpc] at hstatement
    obtain ⟨⟨data, hdata⟩, hmem, hworking⟩ := hstatement
    rw [hworking.level] at hdata
    have hrecords := h.records.commitCompleting hworking.started hmem data html pageId
    have hdb := Database.commit_completing s.database data (s.database.revision + 1) command html pageId
    simp only [State.settle, if_true, hdata]
    refine ⟨hrecords.answer ⟨?_, (by intro hnone; cases hnone), ?_, ?_⟩, rfl, fun _ => ?_⟩
    · intro _ hended
      rcases hended with hnone | hnone <;> cases hnone
    · intro _ hnone
      cases hnone
    · rintro html' ⟨⟩
      refine ⟨command, pageId, hworking.asks, ?_⟩
      rw [hdb]
      simp [Database.setOutcome, hworking.started]
    · show s.context.revision = (s.database.commit _).revision
      rw [hdb, hworking.level]
      rfl
  | keepFails body command html pageId kept hpc =>
    rw [hpc] at hstatement
    obtain ⟨⟨data, hdata⟩, hmem, hworking⟩ := hstatement
    rw [hworking.level] at hdata
    cases kept with
    | false => exact ⟨h.records.close, rfl, rfl⟩
    | true =>
      simp only [State.settle, if_true, hdata]
      exact ⟨(h.records.commitCompleting hworking.started hmem data html pageId).close, rfl, rfl⟩
  | fails body command hpc => exact ⟨h.records.close, rfl, rfl⟩
  | invalidate body command hpc =>
    rw [hpc] at hstatement
    obtain ⟨hpending, hinvalid⟩ := hstatement
    refine ⟨?_, hpending, hinvalid⟩
    show Records parse digest s.context.invalid _ _ _ _
    rw [hinvalid]
    exact (h.closed hinvalid).closeRow true
  | invalidateFails body command kept hpc =>
    rw [hpc] at hstatement
    obtain ⟨hpending, hinvalid⟩ := hstatement
    exact Inv.ended ((h.closed hinvalid).closeRow _) hpending hinvalid body .unknown (by simp)
  | markFailed body command payloadDigest hpc hreceipt =>
    rw [hpc] at hstatement
    obtain ⟨hpending, hinvalid⟩ := hstatement
    exact Inv.ended ((h.closed hinvalid).failed hreceipt) hpending hinvalid body .failed (by simp)
  | markFailedFails body command payloadDigest hpc hreceipt =>
    rw [hpc] at hstatement
    obtain ⟨hpending, hinvalid⟩ := hstatement
    exact Inv.ended ((h.closed hinvalid).failed hreceipt) hpending hinvalid body .unknown (by simp)
  | markNone body command hpc =>
    rw [hpc] at hstatement
    obtain ⟨hpending, hinvalid⟩ := hstatement
    exact Inv.ended (h.closed hinvalid) hpending hinvalid body .unknown (by simp)

theorem Reached.inv (h : Reached parse digest s) : Inv parse digest s :=
  Reachable.invariant (fun _ ⟨csrf, commandPrefix, heq⟩ => heq ▸ Inv.start csrf commandPrefix)
    (fun _ _ hs hstep => hs.step hstep) h

/-! ### A context that was closed -/

/-- The context is closed, and no request is being admitted. -/
structure Closed (s : State Body Html Change) : Prop where
  invalid : s.context.invalid = true
  quiet : s.pc = .idle ∨ ∃ body command, s.pc = .invalidate body command ∨ s.pc = .markFailed body command

theorem Inv.quiet (h : Inv parse digest s) (hinvalid : s.context.invalid = true) : Closed s := by
  refine ⟨hinvalid, ?_⟩
  have hstatement := h.statement
  have hvalid : s.context.invalid ≠ false := by simp [hinvalid]
  cases hs : s.pc with
  | idle => exact .inl rfl
  | invalidate body command => exact .inr ⟨body, command, .inl rfl⟩
  | markFailed body command => exact .inr ⟨body, command, .inr rfl⟩
  | owned body values | replay body command html pageId | insert body command =>
    rw [hs] at hstatement
    exact absurd hstatement.2.1 hvalid
  | attach body command | execute body command | render body command
  | updateRevision body command html pageId | complete body command html pageId
  | keep body command html pageId =>
    rw [hs] at hstatement
    exact absurd hstatement.2.2.valid hvalid

/-- What no longer happens: nothing is executed, no command gets a receipt, no page is sent. -/
structure Still (s t : State Body Html Change) : Prop where
  executed : t.executed = s.executed
  receipts : ∀ command, s.database.receipts command = none → t.database.receipts command = none
  responses : ∀ r ∈ t.responses, r ∈ s.responses ∨ ∀ html, r.answer ≠ .html html

theorem Still.refl (s : State Body Html Change) : Still s s :=
  ⟨rfl, fun _ h => h, fun _ h => .inl h⟩

theorem Still.trans {u : State Body Html Change} (h : Still s t) (h' : Still t u) : Still s u := by
  refine ⟨h'.executed.trans h.executed, fun command hnone => h'.receipts _ (h.receipts _ hnone), ?_⟩
  intro r hr
  rcases h'.responses r hr with hr | hhtml
  · exact h.responses r hr
  · exact .inr hhtml

theorem Still.answer {r : Response Body Html}
    (hreceipts : ∀ command, s.database.receipts command = none → db.receipts command = none)
    (hanswer : ∀ html, r.answer ≠ .html html) : Still s ({s with database := db}.answer r) :=
  ⟨rfl, hreceipts, List.forall_mem_cons.mpr ⟨.inr hanswer, fun _ hr => .inl hr⟩⟩

theorem not_html {answer : Answer Html} (h : answer ∈ [.refused, .unknown]) (html : Html) :
    answer ≠ .html html := by
  rintro rfl
  simp at h

theorem setOutcome_none {outcome : Outcome Html} (other : String) (h : db.receipts other = none) :
    (db.setOutcome command outcome).receipts other = none := by
  by_cases heq : other = command
  · subst heq
    simp [Database.setOutcome, h]
  · simp [Database.setOutcome, heq, h]

theorem Closed.step (h : Closed s) (hstep : Step parse digest s t) : Closed t ∧ Still s t := by
  obtain ⟨hinvalid, hquiet⟩ := h
  cases hstep with
  | refuse body answer hpc hanswer =>
    exact ⟨⟨hinvalid, .inl rfl⟩, Still.answer (fun _ h => h) (not_html hanswer)⟩
  | own body values hpc hparse howned => exact absurd howned.valid (by simp [hinvalid])
  | invalidate body command hpc =>
    exact ⟨⟨hinvalid, .inr ⟨body, command, .inr rfl⟩⟩, rfl, fun _ h => h, fun _ h => .inl h⟩
  | invalidateFails body command kept hpc =>
    exact ⟨⟨hinvalid, .inl rfl⟩, Still.answer (fun _ h => h) (by simp)⟩
  | markFailed body command payloadDigest hpc hreceipt | markFailedFails body command payloadDigest hpc hreceipt =>
    exact ⟨⟨hinvalid, .inl rfl⟩, Still.answer setOutcome_none (by simp)⟩
  | markNone body command hpc =>
    exact ⟨⟨hinvalid, .inl rfl⟩, Still.answer (fun _ h => h) (by simp)⟩
  | leave _ _ _ hpc | found _ _ _ _ hpc | replay _ _ _ _ hpc | leaveReplay _ _ _ _ _ hpc
  | receive _ _ hpc | insert _ _ hpc | insertFails _ _ _ _ hpc | attach _ _ hpc | change _ _ _ hpc
  | rollback _ _ _ hpc | commit _ _ hpc | commitFails _ _ _ hpc | count _ _ _ hpc
  | render _ _ _ _ hpc | updateRevision _ _ _ _ hpc | complete _ _ _ _ hpc | keep _ _ _ _ hpc
  | keepFails _ _ _ _ _ hpc | fails _ _ hpc =>
    rcases hquiet with hidle | ⟨body', command', hidle | hidle⟩ <;> simp [hidle, Pc.trying] at hpc

theorem Closed.run (h : Closed s) (hrun : Relation.ReflTransGen (Step parse digest) s t) :
    Closed t ∧ Still s t := by
  induction hrun with
  | refl => exact ⟨h, .refl s⟩
  | tail _ hlast ih =>
    obtain ⟨hclosed, hstill⟩ := ih.1.step hlast
    exact ⟨hclosed, ih.2.trans hstill⟩

/-! ### A command that is asked for again -/

/-- The context answers a request whose command has a receipt. -/
def Repeats (s : State Body Html Change) (command : String) : Prop :=
  (∃ body values, s.pc = .owned body values ∧ values.command = command ∧
    s.database.receipts command ≠ none) ∨
  ∃ body html pageId, s.pc = .replay body command html pageId

theorem Repeats.step (h : Repeats s command) (hstep : Step parse digest s t) :
    t.database = s.database ∧ t.executed = s.executed ∧ (t.pc = .idle ∨ Repeats t command) := by
  rcases h with ⟨body, values, hpc, rfl, hreceipt⟩ | ⟨body, html, pageId, hpc⟩
  · cases hstep with
    | leave => exact ⟨rfl, rfl, .inl rfl⟩
    | found body' values' html pageId hpc' =>
      obtain ⟨rfl, rfl⟩ : body' = body ∧ values' = values := by simpa [hpc, eq_comm] using hpc'
      exact ⟨rfl, rfl, .inr (.inr ⟨body', html, pageId, rfl⟩)⟩
    | receive body' values' hpc' hnone =>
      obtain ⟨rfl, rfl⟩ : body' = body ∧ values' = values := by simpa [hpc, eq_comm] using hpc'
      exact absurd hnone hreceipt
    | _ => simp_all [Pc.trying]
  · cases hstep with
    | replay | leaveReplay => exact ⟨rfl, rfl, .inl rfl⟩
    | _ => simp_all [Pc.trying]

/-- A request for a completed command, with the body it had, can be answered. -/
theorem retry {body : Body} {values : Values} {html : Html} {pageId : Int} (hpc : s.pc = .idle)
    (howned : s.Owned) (hparse : parse body = some values) (hcsrf : values.csrf = s.context.csrf)
    (hreceipt : s.database.receipts values.command = some ⟨digest body, .complete html pageId⟩) :
    Relation.ReflTransGen (Step parse digest) s
      (s.answer ⟨body, some ⟨digest body, .complete html pageId⟩, false, .html html⟩) := by
  have hown : Step parse digest s {s with pc := .owned body values} :=
    .own body values hpc hparse howned hcsrf
  have hfound : Step parse digest {s with pc := .owned body values}
      {s with pc := .replay body values.command html pageId} :=
    .found body values html pageId rfl hreceipt
  have hreplay : Step parse digest {s with pc := .replay body values.command html pageId}
      (s.answer ⟨body, some ⟨digest body, .complete html pageId⟩, false, .html html⟩) :=
    .replay body values.command html pageId rfl ⟨howned.valid, howned.row, howned.revision⟩
  exact ((Relation.ReflTransGen.single hown).tail hfound).tail hreplay

end Agiru.Page
