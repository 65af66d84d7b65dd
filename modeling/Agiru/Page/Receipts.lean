import Agiru.Page.Command

/-! What holds before each statement of `Write`, and what the records of a context say.

`holdsAt` is the precondition of every statement: what the open transaction has written, how far
the revision in memory is ahead of the database's, and the receipt of the command. `Records` does
not depend on the statement: the receipts agree with the transactions that were committed, and
with what the clients were told.

Receipts of a page's commands, over every run.

Each kind of change keeps the records in agreement: an answer, a new receipt, a commit of data,
and the commit that completes a command. Each statement of `Write` is then one of these, and
leaves what the next statement needs. -/
namespace Agiru.Page
open Undo
open Database

variable {Body Html Change : Type}

/-! ### Transactions -/

/-- Writes data only. -/
def Plain (writes : List (Write Html Change)) : Prop := ∃ data : List Change, writes = data.map .data

/-- Writes data, the revision of the context, and the receipt of the command with its page. -/
def Completing (writes : List (Write Html Change)) (command : String) (html : Html) (pageId : Int) :
    Prop :=
  ∃ (data : List Change) (revision : Nat),
    writes = data.map .data ++ [.revision revision, .complete command html pageId]

theorem Plain.not_completing {writes : List (Write Html Change)} (h : Plain writes) {command : String}
    {html : Html} {pageId : Int} : ¬ Completing writes command html pageId := by
  obtain ⟨data, rfl⟩ := h
  rintro ⟨data', revision, heq⟩
  have hmem : Write.revision revision ∈ data.map (.data : Change → Write Html Change) := by
    rw [heq]; simp
  simp at hmem

theorem Plain.append {writes : List (Write Html Change)} (h : Plain writes) (change : Change) :
    Plain (writes ++ [.data change]) := by
  obtain ⟨data, rfl⟩ := h
  exact ⟨data ++ [change], by simp⟩

theorem Plain.of_isPrefix {writes kept : List (Write Html Change)} (h : Plain writes)
    (hkept : kept <+: writes) : Plain kept := by
  obtain ⟨data, rfl⟩ := h
  exact ⟨data.take kept.length, by rw [List.map_take]; exact List.prefix_iff_eq_take.mp hkept⟩

theorem Completing.unique {writes : List (Write Html Change)} {command command' : String}
    {html html' : Html} {pageId pageId' : Int} (h : Completing writes command html pageId)
    (h' : Completing writes command' html' pageId') :
    command = command' ∧ html = html' ∧ pageId = pageId' := by
  obtain ⟨data, revision, rfl⟩ := h
  obtain ⟨data', revision', heq⟩ := h'
  have hlast := congrArg List.getLast? heq
  simpa using hlast

/-- What a receipt of the database says of its command. -/
def Database.outcome (db : Database Html Change) (command : String) : Option (Outcome Html) :=
  (db.receipts command).map Receipt.outcome

theorem Database.commit_plain (db : Database Html Change) (data : List Change) :
    db.commit (data.map .data) = {db with data := db.data ++ data} := by
  induction data generalizing db with
  | nil => simp [commit]
  | cons change data ih =>
    have hstep : db.commit ((change :: data).map .data) =
        commit {db with data := db.data ++ [change]} (data.map .data) := rfl
    rw [hstep, ih]
    simp

theorem Database.commit_completing (db : Database Html Change) (data : List Change) (revision : Nat)
    (command : String) (html : Html) (pageId : Int) :
    db.commit (data.map .data ++ [.revision revision, .complete command html pageId]) =
      setOutcome {db with data := db.data ++ data, revision} command
        (.complete html pageId) := by
  have hsplit : db.commit (data.map .data ++ [.revision revision, .complete command html pageId]) =
      (db.commit (data.map .data)).commit [.revision revision, .complete command html pageId] :=
    List.foldl_append
  rw [hsplit, commit_plain]
  rfl

/-! ### Receipts -/

/-- The client asks for this command. -/
def Asks (parse : Body → Option Values) (body : Body) (command : String) : Prop :=
  ∃ values, parse body = some values ∧ values.command = command

/-- What a client was told agrees with the receipts. -/
structure Told (parse : Body → Option Values) (digest : Body → String) (invalid : Bool)
    (receipts : String → Option (Receipt Html)) (r : Response Body Html) : Prop where
  closed : r.begun = true → r.answer = .failed ∨ r.answer = .unknown → invalid = true
  failed : r.answer = .failed → r.begun = true
  stored : ∀ receipt, r.stored = some receipt → r.begun = false ∧
    ∀ html, r.answer = .html html → ∃ pageId, receipt = ⟨digest r.body, .complete html pageId⟩
  html : ∀ html, r.answer = .html html → ∃ command pageId, Asks parse r.body command ∧
    receipts command = some ⟨digest r.body, .complete html pageId⟩

/-- The records of a context agree with each other. -/
structure Records (parse : Body → Option Values) (digest : Body → String) (invalid : Bool)
    (db : Database Html Change) (executed : List String) (commits : List (Transaction Html Change))
    (responses : List (Response Body Html)) : Prop where
  gone : db.invalidated = true → invalid = true
  once : executed.Nodup
  admitted : ∀ command ∈ executed, (db.receipts command).isSome = true
  digests : ∀ command receipt, db.receipts command = some receipt →
    ∃ body, Asks parse body command ∧ receipt.payloadDigest = digest body
  executed : ∀ transaction ∈ commits, transaction.command ∈ executed
  plain : ∀ transaction ∈ commits, transaction.explicit = true → Plain transaction.writes
  completing : ∀ transaction ∈ commits, transaction.explicit = false →
    ∃ html pageId, Completing transaction.writes transaction.command html pageId
  complete : ∀ command html pageId, db.outcome command = some (.complete html pageId) ↔
    ∃ transaction ∈ commits, transaction.command = command ∧ transaction.explicit = false ∧
      Completing transaction.writes command html pageId
  revision : db.revision = commits.countP fun transaction => !transaction.explicit
  told : ∀ r ∈ responses, Told parse digest invalid db.receipts r

/-- A command in the protected block, with the revision in memory `ahead` of the database's. -/
structure Working (parse : Body → Option Values) (digest : Body → String)
    (s : State Body Html Change) (ahead : Nat) (body : Body) (command : String) : Prop where
  valid : s.context.invalid = false
  level : s.context.revision = s.database.revision + ahead
  asks : Asks parse body command
  started : s.database.receipts command = some ⟨digest body, .started⟩

/-- The precondition of each statement. -/
def holdsAt (parse : Body → Option Values) (digest : Body → String) (s : State Body Html Change) :
    Pc Body Html → Prop
  | .idle => s.pending = [] ∧
    (s.context.invalid = false → s.context.revision = s.database.revision)
  | .owned body values => s.pending = [] ∧ s.context.invalid = false ∧
    s.context.revision = s.database.revision ∧ parse body = some values
  | .replay body command html pageId => s.pending = [] ∧ s.context.invalid = false ∧
    s.context.revision = s.database.revision ∧ Asks parse body command ∧
    s.database.receipts command = some ⟨digest body, .complete html pageId⟩
  | .insert body command => s.pending = [] ∧ s.context.invalid = false ∧
    s.context.revision = s.database.revision ∧ Asks parse body command ∧
    s.database.receipts command = none
  | .attach body command => s.pending = [] ∧ command ∉ s.executed ∧
    Working parse digest s 0 body command
  | .execute body command => Plain s.pending ∧ command ∈ s.executed ∧
    Working parse digest s 0 body command
  | .render body command | .updateRevision body command _ _ => Plain s.pending ∧
    command ∈ s.executed ∧ Working parse digest s 1 body command
  | .complete body command _ _ =>
    (∃ data : List Change, s.pending = data.map .data ++ [.revision s.context.revision]) ∧
    command ∈ s.executed ∧ Working parse digest s 1 body command
  | .keep body command html pageId =>
    (∃ data : List Change, s.pending =
      data.map .data ++ [.revision s.context.revision, .complete command html pageId]) ∧
    command ∈ s.executed ∧ Working parse digest s 1 body command
  | .invalidate _ _ | .markFailed _ _ => s.pending = [] ∧ s.context.invalid = true

/-- The invariant of a run. -/
structure Inv (parse : Body → Option Values) (digest : Body → String) (s : State Body Html Change) :
    Prop where
  records : Records parse digest s.context.invalid s.database s.executed s.commits s.responses
  statement : holdsAt parse digest s s.pc

variable {Body Html Change : Type}

section Records
variable {parse : Body → Option Values} {digest : Body → String} {invalid : Bool}
  {db : Database Html Change} {executed : List String} {commits : List (Transaction Html Change)}
  {responses : List (Response Body Html)}

/-! ### What clients were told -/

theorem Told.refused {receipts : String → Option (Receipt Html)} (body : Body)
    (stored : Option (Receipt Html)) {answer : Answer Html} (h : answer ∈ [.refused, .unknown]) :
    Told parse digest invalid receipts ⟨body, stored, false, answer⟩ := by
  have hanswer : answer = .refused ∨ answer = .unknown := by simpa using h
  constructor
  · rintro ⟨⟩
  · rintro rfl
    simp at hanswer
  · refine fun receipt _ => ⟨rfl, fun html heq => ?_⟩
    rw [show answer = .html html from heq] at hanswer
    simp at hanswer
  · intro html heq
    rw [show answer = .html html from heq] at hanswer
    simp at hanswer

/-- A command that ended badly closed the context. -/
theorem Told.ended {receipts : String → Option (Receipt Html)} (body : Body) {answer : Answer Html}
    (h : answer ∈ [.failed, .unknown]) :
    Told parse digest true receipts ⟨body, none, true, answer⟩ := by
  have hanswer : answer = .failed ∨ answer = .unknown := by simpa using h
  constructor
  · exact fun _ _ => rfl
  · exact fun _ => rfl
  · rintro receipt ⟨⟩
  · intro html heq
    rw [show answer = .html html from heq] at hanswer
    simp at hanswer

/-- What a client was told stays true while complete receipts stay, and the context once closed
stays so. -/
theorem Told.mono {invalid' : Bool} {receipts receipts' : String → Option (Receipt Html)}
    {r : Response Body Html} (h : Told parse digest invalid receipts r)
    (hclosed : invalid = true → invalid' = true)
    (hkept : ∀ command payloadDigest html pageId,
      receipts command = some ⟨payloadDigest, .complete html pageId⟩ →
        receipts' command = some ⟨payloadDigest, .complete html pageId⟩) :
    Told parse digest invalid' receipts' r := by
  refine ⟨fun hbegun hanswer => hclosed (h.closed hbegun hanswer), h.failed, h.stored, ?_⟩
  intro html hanswer
  obtain ⟨command, pageId, hasks, hreceipt⟩ := h.html html hanswer
  exact ⟨command, pageId, hasks, hkept _ _ _ _ hreceipt⟩

/-! ### What keeps the records in agreement -/

theorem Records.answer (h : Records parse digest invalid db executed commits responses)
    {r : Response Body Html} (hr : Told parse digest invalid db.receipts r) :
    Records parse digest invalid db executed commits (r :: responses) :=
  {h with told := List.forall_mem_cons.mpr ⟨hr, h.told⟩}

theorem Records.close (h : Records parse digest invalid db executed commits responses) :
    Records parse digest true db executed commits responses :=
  {h with
    gone := fun _ => rfl
    told := fun r hr => (h.told r hr).mono (fun _ => rfl) fun _ _ _ _ hreceipt => hreceipt}

theorem Records.closeRow (h : Records parse digest true db executed commits responses)
    (invalidated : Bool) :
    Records parse digest true {db with invalidated} executed commits responses :=
  {h with gone := fun _ => rfl}

theorem Records.execute (h : Records parse digest invalid db executed commits responses)
    {command : String} (hnew : command ∉ executed) (hreceipt : (db.receipts command).isSome = true) :
    Records parse digest invalid db (command :: executed) commits responses :=
  {h with
    once := List.nodup_cons.mpr ⟨hnew, h.once⟩
    admitted := List.forall_mem_cons.mpr ⟨hreceipt, h.admitted⟩
    executed := fun transaction ht => List.mem_cons_of_mem _ (h.executed transaction ht)}

/-- A receipt that is not complete is replaced by one that is not complete. -/
theorem Records.receipt (h : Records parse digest invalid db executed commits responses)
    {command : String} {receipt : Receipt Html}
    (hold : ∀ html pageId, db.outcome command ≠ some (.complete html pageId))
    (hnew : ∀ html pageId, receipt.outcome ≠ .complete html pageId)
    (hdigest : ∃ body, Asks parse body command ∧ receipt.payloadDigest = digest body) :
    Records parse digest invalid
      {db with receipts := Function.update db.receipts command (some receipt)}
      executed commits responses := by
  refine {h with admitted := ?_, digests := ?_, complete := ?_, told := ?_}
  · intro command' hmem
    by_cases heq : command' = command
    · subst heq
      simp
    · simpa [heq] using h.admitted command' hmem
  · intro command' receipt' hreceipt
    by_cases heq : command' = command
    · subst heq
      obtain rfl : receipt = receipt' := by simpa using hreceipt
      exact hdigest
    · exact h.digests command' receipt' (by simpa [heq] using hreceipt)
  · intro command' html pageId
    rw [← h.complete command' html pageId]
    by_cases heq : command' = command
    · subst heq
      exact iff_of_false (by simp [outcome, hnew]) (hold html pageId)
    · simp [outcome, heq]
  · intro r hr
    refine (h.told r hr).mono id fun command' payloadDigest html pageId hreceipt => ?_
    have hne : command' ≠ command := by
      rintro rfl
      exact hold html pageId (by rw [outcome, hreceipt]; rfl)
    simpa [hne] using hreceipt

theorem Records.commitPlain (h : Records parse digest invalid db executed commits responses)
    {command : String} {writes : List (Write Html Change)} (hplain : Plain writes)
    (hmem : command ∈ executed) :
    Records parse digest invalid (db.commit writes) executed (⟨command, true, writes⟩ :: commits)
      responses := by
  have hnot : ∀ command' html pageId, ¬ Completing writes command' html pageId :=
    fun _ _ _ => hplain.not_completing
  obtain ⟨data, rfl⟩ := hplain
  rw [commit_plain]
  refine {h with executed := ?_, plain := ?_, completing := ?_, complete := ?_, revision := ?_}
  · exact List.forall_mem_cons.mpr ⟨hmem, h.executed⟩
  · exact List.forall_mem_cons.mpr ⟨fun _ => ⟨data, rfl⟩, h.plain⟩
  · exact List.forall_mem_cons.mpr ⟨by rintro ⟨⟩, h.completing⟩
  · intro command' html pageId
    simpa [outcome] using h.complete command' html pageId
  · simpa using h.revision

/-- The commit that completes a command, whose receipt was started. -/
theorem Records.commitCompleting
    (h : Records parse digest invalid db executed commits responses) {command payloadDigest : String}
    (hstarted : db.receipts command = some ⟨payloadDigest, .started⟩) (hmem : command ∈ executed)
    (data : List Change) (html : Html) (pageId : Int) :
    let writes := data.map .data ++ [.revision (db.revision + 1), .complete command html pageId]
    Records parse digest invalid (db.commit writes) executed (⟨command, false, writes⟩ :: commits)
      responses := by
  intro writes
  have hwrites : Completing writes command html pageId := ⟨data, _, rfl⟩
  have hfirst : ∀ transaction ∈ commits, transaction.explicit = false →
      transaction.command ≠ command := by
    rintro transaction ht hexplicit rfl
    obtain ⟨html', pageId', hcompleting⟩ := h.completing transaction ht hexplicit
    have hcomplete := (h.complete transaction.command html' pageId').mpr
      ⟨transaction, ht, rfl, hexplicit, hcompleting⟩
    simp [outcome, hstarted] at hcomplete
  have hdb : db.commit writes = _ := commit_completing db data _ command html pageId
  rw [hdb]
  refine ⟨h.gone, h.once, ?_, ?_, ?_, ?_, ?_, ?_, ?_, ?_⟩
  · intro command' hmem'
    by_cases heq : command' = command
    · subst heq
      simp [setOutcome, hstarted]
    · simpa [setOutcome, heq] using h.admitted command' hmem'
  · intro command' receipt hreceipt
    by_cases heq : command' = command
    · subst heq
      obtain rfl : ⟨payloadDigest, .complete html pageId⟩ = receipt := by
        simpa [setOutcome, hstarted] using hreceipt
      obtain ⟨body, hasks, hdigest⟩ := h.digests command' _ hstarted
      exact ⟨body, hasks, hdigest⟩
    · exact h.digests command' receipt (by simpa [setOutcome, heq] using hreceipt)
  · exact List.forall_mem_cons.mpr ⟨hmem, h.executed⟩
  · exact List.forall_mem_cons.mpr ⟨by rintro ⟨⟩, h.plain⟩
  · exact List.forall_mem_cons.mpr ⟨fun _ => ⟨html, pageId, hwrites⟩, h.completing⟩
  · intro command' html' pageId'
    by_cases heq : command' = command
    · subst heq
      have houtcome : outcome (setOutcome
          {db with data := db.data ++ data, revision := db.revision + 1} command'
          (.complete html pageId)) command' = some (.complete html pageId) := by
        simp [outcome, setOutcome, hstarted]
      rw [houtcome]
      constructor
      · rintro ⟨⟩
        exact ⟨_, List.mem_cons_self, rfl, rfl, hwrites⟩
      · rintro ⟨transaction, ht, hcommand, hexplicit, hcompleting⟩
        rcases List.mem_cons.mp ht with rfl | ht
        · obtain ⟨-, rfl, rfl⟩ := hwrites.unique hcompleting
          rfl
        · exact absurd hcommand (hfirst transaction ht hexplicit)
    · have houtcome : outcome (setOutcome
          {db with data := db.data ++ data, revision := db.revision + 1} command
          (.complete html pageId)) command' = db.outcome command' := by
        simp [outcome, setOutcome, heq]
      rw [houtcome, h.complete command' html' pageId']
      simp [Ne.symm heq]
  · simp [setOutcome, h.revision]
  · intro r hr
    refine (h.told r hr).mono id fun command' payloadDigest' html' pageId' hreceipt => ?_
    have hne : command' ≠ command := by
      rintro rfl
      simp [hstarted] at hreceipt
    simpa [setOutcome, hne] using hreceipt

end Records

end Agiru.Page
