import Agiru.Page.Runs

/-! Commands of a page run at most once, and their receipts tell the truth. -/
namespace Agiru.Page
open Undo

section Runs
variable {Body Html Change : Type} {parse : Body → Option Values} {digest : Body → String}
  {s : State Body Html Change}

/-- A failed receipt: what the command committed, it committed explicitly. -/
theorem Records.explicit_of_failed {invalid : Bool} {db : Database Html Change}
    {executed : List String} {commits : List (Transaction Html Change)}
    {responses : List (Response Body Html)}
    (h : Records parse digest invalid db executed commits responses) {command : String}
    (hfailed : db.outcome command = some .failed) :
    ∀ transaction ∈ commits, transaction.command = command → transaction.explicit = true := by
  rintro transaction ht rfl
  by_contra hexplicit
  have hexplicit : transaction.explicit = false := by simpa using hexplicit
  obtain ⟨html, pageId, hcompleting⟩ := h.completing transaction ht hexplicit
  have hcomplete := (h.complete transaction.command html pageId).mpr
    ⟨transaction, ht, rfl, hexplicit, hcompleting⟩
  rw [hfailed] at hcomplete
  cases hcomplete

/-- A request whose command had a receipt gets the page of that receipt, if it was its request. -/
theorem Told.receipt {invalid : Bool} {receipts : String → Option (Receipt Html)}
    {r : Response Body Html} (h : Told parse digest invalid receipts r) {receipt : Receipt Html}
    (hstored : r.stored = some receipt) :
    r.begun = false ∧
      (∀ html, r.answer = .html html →
        ∃ pageId, receipt = ⟨digest r.body, .complete html pageId⟩) ∧
      (receipt.payloadDigest ≠ digest r.body → r.answer ∈ [.refused, .unknown]) := by
  obtain ⟨hbegun, hhtml⟩ := h.stored receipt hstored
  refine ⟨hbegun, hhtml, fun hother => ?_⟩
  cases hanswer : r.answer with
  | html html =>
    obtain ⟨pageId, rfl⟩ := hhtml html hanswer
    exact absurd rfl hother
  | refused => simp
  | failed => exact absurd (h.failed hanswer) (by simp [hbegun])
  | unknown => simp

/-- **Page commands run at most once and their receipts tell the truth.** -/
theorem commands_run_once (h : Reached parse digest s) :
    s.executed.Nodup ∧
    (∀ command html pageId, s.database.outcome command = some (.complete html pageId) ↔
      ∃ transaction ∈ s.commits, transaction.command = command ∧ transaction.explicit = false ∧
        Completing transaction.writes command html pageId) ∧
    s.database.revision = s.commits.countP (fun transaction => !transaction.explicit) ∧
    (∀ command, s.database.outcome command = some .failed → ∀ transaction ∈ s.commits,
      transaction.command = command → transaction.explicit = true ∧ Plain transaction.writes) ∧
    (∀ command receipt, s.database.receipts command = some receipt →
      ∃ body, Asks parse body command ∧ receipt.payloadDigest = digest body) ∧
    (∀ r ∈ s.responses, ∀ receipt, r.stored = some receipt → r.begun = false ∧
      (∀ html, r.answer = .html html →
        ∃ pageId, receipt = ⟨digest r.body, .complete html pageId⟩) ∧
      (receipt.payloadDigest ≠ digest r.body → r.answer ∈ [.refused, .unknown])) ∧
    (∀ command t, Repeats s command → Step parse digest s t →
      t.database = s.database ∧ t.executed = s.executed ∧ (t.pc = .idle ∨ Repeats t command)) ∧
    (∀ body values html pageId, s.pc = .idle → s.Owned → parse body = some values →
      values.csrf = s.context.csrf →
      s.database.receipts values.command = some ⟨digest body, .complete html pageId⟩ →
      Relation.ReflTransGen (Step parse digest) s
        (s.answer ⟨body, some ⟨digest body, .complete html pageId⟩, false, .html html⟩)) ∧
    (∀ r ∈ s.responses, r.begun = true → r.answer = .failed ∨ r.answer = .unknown →
      s.context.invalid = true) ∧
    (s.context.invalid = true → ∀ t, Relation.ReflTransGen (Step parse digest) s t →
      t.context.invalid = true ∧ t.executed = s.executed ∧
      ∀ command, s.database.receipts command = none → t.database.receipts command = none) ∧
    (s.context.invalid = false → s.pc = .idle → s.context.revision = s.database.revision) := by
  have hinv := h.inv
  have hrecords := hinv.records
  refine ⟨hrecords.once, hrecords.complete, hrecords.revision, ?_, hrecords.digests, ?_, ?_, ?_, ?_, ?_, ?_⟩
  · intro command hfailed transaction ht hcommand
    have hexplicit := hrecords.explicit_of_failed hfailed transaction ht hcommand
    exact ⟨hexplicit, hrecords.plain transaction ht hexplicit⟩
  · exact fun r hr receipt hstored => (hrecords.told r hr).receipt hstored
  · exact fun command t hrepeats hstep => hrepeats.step hstep
  · exact fun body values html pageId hpc howned hparse hcsrf hreceipt =>
      retry hpc howned hparse hcsrf hreceipt
  · exact fun r hr hbegun hanswer => (hrecords.told r hr).closed hbegun hanswer
  · intro hinvalid t hrun
    obtain ⟨hclosed, hstill⟩ := (hinv.quiet hinvalid).run hrun
    exact ⟨hclosed.invalid, hstill.executed, hstill.receipts⟩
  · intro hvalid hpc
    have hstatement := hinv.statement
    rw [hpc] at hstatement
    exact hstatement.2 hvalid

end Runs

/-! ### Runs of one context -/

section Example

/-- Requests are their parameters, and are told apart by their command. -/
abbrev Run : State Values Unit Unit → Prop := Reached some Values.command

/-- The first command of the context. -/
def first : Values := ⟨"0", "p_0", "csrf"⟩

/-- The second, after the page that answered the first. -/
def second : Values := ⟨"1", "q_0", "csrf"⟩

def opened : State Values Unit Unit := {context := {csrf := "csrf", commandPrefix := "p"}}

theorem run_opened : Run opened := ⟨opened, ⟨"csrf", "p", rfl⟩, .refl⟩

/-- A request with a command at the context's revision is executed. -/
theorem run_execute {s : State Values Unit Unit} (values : Values) (hpc : s.pc = .idle)
    (howned : s.Owned) (hcsrf : values.csrf = s.context.csrf)
    (hreceipt : s.database.receipts values.command = none)
    (hrevision : number values.revision = some s.context.revision)
    (hissued : s.context.issued values.command = true) :
    Relation.ReflTransGen (Step some Values.command) s
      {s with
        database := {s.database with
          receipts := Function.update s.database.receipts values.command
            (some ⟨values.command, .started⟩)}
        pc := .execute values values.command
        executed := values.command :: s.executed} :=
  ((((Relation.ReflTransGen.refl.tail (.own values values hpc rfl howned hcsrf)).tail
    (.receive values values rfl hreceipt hrevision hissued)).tail (.insert values values.command rfl)).tail
    (.attach values values.command rfl (by exact ⟨howned.valid, howned.row, howned.revision⟩)))

/-- A command that is executed completes. -/
theorem run_complete {s : State Values Unit Unit} (values : Values) (commandPrefix : String)
    (hpc : s.pc = .execute values values.command) (hpending : s.pending = [])
    (hbound : s.context.revision ≠ 9223372036854775807)
    (hrevision : s.database.revision = s.context.revision) :
    Relation.ReflTransGen (Step some Values.command) s
      {s with
        context := {s.context with revision := s.context.revision + 1, commandPrefix}
        database := Database.setOutcome {s.database with revision := s.context.revision + 1}
          values.command (.complete () 0)
        pc := .idle
        commits := ⟨values.command, false,
          [.revision (s.context.revision + 1), .complete values.command () 0]⟩ :: s.commits
        responses := ⟨values, none, true, .html ()⟩ :: s.responses} := by
  obtain ⟨context, database, pending, pc, executed, commits, responses⟩ := s
  obtain rfl : pending = [] := hpending
  exact (((((Relation.ReflTransGen.refl.tail (.count values values.command commandPrefix hpc hbound)).tail
    (.render values values.command () 0 rfl)).tail
    (.updateRevision values values.command () 0 rfl (congrArg (· + 1) hrevision))).tail
    (.complete values values.command () 0 rfl)).tail (.keep values values.command () 0 rfl))

/-- The receipt of the first command could not be inserted. -/
def unknown : State Values Unit Unit :=
  {opened with responses := [⟨first, none, false, .unknown⟩]}

theorem run_unknown : Run unknown :=
  ((run_opened.step (.own first first rfl rfl ⟨rfl, rfl, rfl⟩ rfl)).step
    (.receive first first rfl rfl (by decide +kernel) (by decide +kernel))).step
    (.insertFails first "p_0" false .unknown rfl (by simp))

/-- The first command completed, the second failed: the context is closed. -/
theorem run_closed : ∃ s : State Values Unit Unit, Run s ∧ s.pc = .idle ∧ s.context.invalid = true ∧
    s.database.receipts "p_0" = some ⟨"p_0", .complete () 0⟩ ∧
    ∀ r ∈ s.responses, r.stored = none := by
  have hexecute := run_execute (s := opened) first rfl ⟨rfl, rfl, rfl⟩ rfl rfl (by decide +kernel)
    (by decide +kernel)
  have hcomplete := hexecute.trans (run_complete first "q" rfl rfl (by decide) rfl)
  have hsecond := hcomplete.trans
    (run_execute second rfl ⟨rfl, rfl, rfl⟩ rfl (by decide +kernel) (by decide +kernel) (by decide +kernel))
  have hfailed := ((hsecond.tail (.fails second "q_0" rfl)).tail (.invalidate second "q_0" rfl)).tail
    (.markFailed second "q_0" "q_0" rfl (by decide +kernel))
  exact ⟨_, ⟨opened, ⟨"csrf", "p", rfl⟩, hfailed⟩, rfl, rfl, by decide +kernel, by
    simp [State.answer, State.settle, State.invalidating, opened]⟩

/-- A client can be told `unknown`, and the context executes its next command; and the page of a
completed command is no longer sent once another command has failed. -/
theorem unknown_then_executed :
    (∃ s t : State Values Unit Unit, Run s ∧ (∃ r ∈ s.responses, r.answer = .unknown) ∧
      Relation.ReflTransGen (Step some Values.command) s t ∧ t.executed ≠ s.executed) ∧
    ∃ s : State Values Unit Unit, Run s ∧ s.pc = .idle ∧
      s.database.receipts first.command = some ⟨first.command, .complete () 0⟩ ∧
      ∀ t, Relation.ReflTransGen (Step some Values.command) s t →
        ∀ r ∈ t.responses, r.stored ≠ none → ∀ html, r.answer ≠ .html html := by
  constructor
  · refine ⟨unknown, _, run_unknown, ⟨_, List.mem_singleton_self _, rfl⟩,
      run_execute first rfl ⟨rfl, rfl, rfl⟩ rfl rfl (by decide +kernel) (by decide +kernel), ?_⟩
    simp [unknown, opened]
  · obtain ⟨s, hrun, hpc, hinvalid, hreceipt, hstored⟩ := run_closed
    refine ⟨s, hrun, hpc, hreceipt, fun t ht r hr hrstored => ?_⟩
    have hclosed : Closed s := ⟨hinvalid, .inl hpc⟩
    rcases (hclosed.run ht).2.responses r hr with hold | hhtml
    · exact absurd (hstored r hold) hrstored
    · exact hhtml

/-- The records of the context in which the second command failed. -/
theorem commands_run_once_closed : ∃ s : State Values Unit Unit, s.context.invalid = true ∧
    s.database.outcome "p_0" = some (.complete () 0) ∧ s.executed.Nodup ∧
    s.database.revision = s.commits.countP (fun transaction => !transaction.explicit) := by
  obtain ⟨s, hrun, -, hinvalid, hreceipt, -⟩ := run_closed
  have honce := commands_run_once hrun
  exact ⟨s, hinvalid, by rw [Database.outcome, hreceipt]; rfl, honce.1, honce.2.2.1⟩

end Example

end Agiru.Page
