import Agiru.Dialog.Question

/-! What every run of a call keeps: the open question and its row agree, and a recorded choice
stays. -/
namespace Agiru.Dialog
open Bytes

variable {s t : State}
variable {request : Nat}

/-! ### Rows -/

/-- A row, and the same row after a statement. -/
structure DialogRow.Later (row row' : DialogRow) : Prop where
  call : row'.call = row.call
  user : row'.user = row.user
  host : row'.host = row.host
  choices : row'.choices = row.choices
  expiresAt : row'.expiresAt = row.expiresAt
  answer : ∀ choice, row.answer = some choice → row'.answer = some choice

theorem DialogRow.Later.refl (row : DialogRow) : row.Later row :=
  ⟨rfl, rfl, rfl, rfl, rfl, fun _ h => h⟩

theorem DialogRow.Later.trans {a b c : DialogRow} (h : a.Later b) (h' : b.Later c) : a.Later c where
  call := h'.call.trans h.call
  user := h'.user.trans h.user
  host := h'.host.trans h.host
  choices := h'.choices.trans h.choices
  expiresAt := h'.expiresAt.trans h.expiresAt
  answer choice hanswer := h'.answer choice (h.answer choice hanswer)

theorem DialogRow.later_closed (row : DialogRow) (closed : Bool) : row.Later {row with closed} :=
  ⟨rfl, rfl, rfl, rfl, rfl, fun _ h => h⟩

theorem DialogRow.later_answered {row : DialogRow} (choice : Nat) (h : row.answer = none) :
    row.Later {row with answer := some choice} :=
  ⟨rfl, rfl, rfl, rfl, rfl, fun _ hanswer => nomatch h.symm.trans hanswer⟩

/-- The calls of two states are the same call. -/
def SameCall (s t : State) : Prop :=
  t.call.handle = s.call.handle ∧ t.call.user = s.call.user ∧ t.call.host = s.call.host

theorem SameCall.refl (s : State) : SameCall s s := ⟨rfl, rfl, rfl⟩

theorem SameCall.trans {u : State} (h : SameCall s t) (h' : SameCall t u) : SameCall s u :=
  ⟨h'.1.trans h.1, h'.2.1.trans h.2.1, h'.2.2.trans h.2.2⟩

theorem SameCall.owns_iff (h : SameCall s t) (row : DialogRow) : t.owns row ↔ s.owns row := by
  obtain ⟨hhandle, huser, hhost⟩ := h
  simp only [State.owns, hhandle, huser, hhost]

theorem owns_later {row row' : DialogRow} (h : row.Later row') : s.owns row' ↔ s.owns row := by
  simp only [State.owns, h.call, h.user, h.host]

/-- The rows of a call stay, with what is recorded in them. -/
structure Kept (s t : State) : Prop where
  same : SameCall s t
  rows : ∀ handle row, s.dialogs handle = some row → s.owns row →
    ∃ row', t.dialogs handle = some row' ∧ row.Later row'

theorem Kept.refl (s : State) : Kept s s := ⟨.refl s, fun _ row h _ => ⟨row, h, .refl row⟩⟩

theorem Kept.trans {u : State} (h : Kept s t) (h' : Kept t u) : Kept s u := by
  refine ⟨h.same.trans h'.same, fun handle row hrow howns => ?_⟩
  obtain ⟨row', hrow', hlater⟩ := h.rows handle row hrow howns
  have howns' := (h.same.owns_iff row').mpr ((owns_later hlater).mpr howns)
  obtain ⟨row'', hrow'', hlater'⟩ := h'.rows handle row' hrow' howns'
  exact ⟨row'', hrow'', hlater.trans hlater'⟩

theorem Kept.of_dialogs (hsame : SameCall s t) (h : t.dialogs = s.dialogs) : Kept s t :=
  ⟨hsame, fun _ row hrow _ => ⟨row, h ▸ hrow, .refl row⟩⟩

/-- One row is written. -/
theorem Kept.of_write {handle : Bytes} {row : DialogRow} (hsame : SameCall s t)
    (h : t.dialogs = Function.update s.dialogs handle (some row))
    (hlater : ∀ before, s.dialogs handle = some before → before.Later row) : Kept s t := by
  refine ⟨hsame, fun handle' before hbefore _ => ?_⟩
  rw [h]
  by_cases heq : handle' = handle
  · subst heq
    exact ⟨row, Function.update_self .., hlater before hbefore⟩
  · exact ⟨before, by rwa [Function.update_of_ne heq], .refl before⟩

theorem Step.kept (h : Step s t) : Kept s t := by
  cases h with
  | time | cancel | finish | decline | wake | turnAway | unoffered | beginActive | beginInactive | updateNone
  | updateFails | replay | replayFails => exact .of_dialogs ⟨rfl, rfl, rfl⟩ rfl
  | other dialogs hother => exact ⟨⟨rfl, rfl, rfl⟩, fun handle row hrow howns =>
      ⟨row, hother.1 handle row hrow howns.1, .refl row⟩⟩
  | publishFails question expiresAt _ _ _ _ _ hnone | publish question expiresAt _ _ _ _ _ _ _ hnone =>
    exact .of_write ⟨rfl, rfl, rfl⟩ rfl fun before hbefore => nomatch hnone.symm.trans hbefore
  | close question answered row _ hrow | closeFails question answered kept row _ hrow =>
    refine .of_write ⟨rfl, rfl, rfl⟩ rfl fun before hbefore => ?_
    obtain rfl : row = before := Option.some.inj (hrow.symm.trans hbefore)
    exact row.later_closed _
  | update request handle choice row question _ hrow htakes | updateLost request handle choice row _ hrow htakes =>
    refine .of_write ⟨rfl, rfl, rfl⟩ rfl fun before hbefore => ?_
    obtain rfl : row = before := Option.some.inj (hrow.symm.trans hbefore)
    exact DialogRow.later_answered choice htakes.2.2.1

/-! ### The open question -/

/-- The row of a question that was published, with the answer that is in memory. -/
def Backed (s : State) (question : PageQuestion) : Prop :=
  ∃ row, s.dialogs question.handle = some row ∧ s.owns row ∧ row.choices = question.choices.length ∧
    ∀ choice, question.answer = some choice → row.answer = some choice

theorem Backed.kept {question : PageQuestion} (h : Kept s t) (hbacked : Backed s question) :
    Backed t question := by
  obtain ⟨row, hrow, howns, hchoices, hanswer⟩ := hbacked
  obtain ⟨row', hrow', hlater⟩ := h.rows _ row hrow howns
  refine ⟨row', hrow', (h.same.owns_iff row').mpr ((owns_later hlater).mpr howns), ?_, ?_⟩
  · rw [hlater.choices, hchoices]
  · exact fun choice hchoice => hlater.answer choice (hanswer choice hchoice)

structure Open (s : State) : Prop where
  waiting : s.asking = .waiting ↔ s.call.question.isSome = true
  question : ∀ question, s.call.question = some question → Backed s question
  closing : ∀ question answered, s.asking = .closing question answered → Backed s question
  update : ∀ request handle choice, s.requests request = .update handle choice →
    s.mutex = some request ∧
      ∃ question, s.call.question = some question ∧ question.handle = handle ∧
        choice < question.choices.length
  replay : ∀ request handle choice, s.requests request = .replay handle choice → s.mutex = some request

/-- A step of the requests and the asking session alone that leaves their counters. -/
theorem Open.frame (h : Open s) (hkept : Kept s t) (hcall : t.call.question = s.call.question)
    (hasking : t.asking = s.asking) (hmutex : t.mutex = s.mutex) (hrequests : t.requests = s.requests) :
    Open t where
  waiting := by rw [hasking, hcall]; exact h.waiting
  question question hq := (h.question question (hcall ▸ hq)).kept hkept
  closing question answered hq := (h.closing question answered (hasking ▸ hq)).kept hkept
  update request handle choice hr := by
    rw [hcall, hmutex]
    exact h.update request handle choice (hrequests ▸ hr)
  replay request handle choice hr := by
    rw [hmutex]
    exact h.replay request handle choice (hrequests ▸ hr)

theorem Open.idle_request (h : Open s) (hmutex : s.mutex = none) (request : Nat) :
    s.requests request = .idle := by
  cases hr : s.requests request with
  | idle => rfl
  | update handle choice => exact absurd (hmutex.symm.trans (h.update _ _ _ hr).1) nofun
  | replay handle choice => exact absurd (hmutex.symm.trans (h.replay _ _ _ hr)) nofun

/-- A step of the asking session, while no request holds the mutex. -/
theorem Open.asks (h : Open s) (hmutex : s.mutex = none) (hsame : t.requests = s.requests)
    (hwaiting : t.asking = .waiting ↔ t.call.question.isSome = true)
    (hquestion : ∀ question, t.call.question = some question → Backed t question)
    (hclosing : ∀ question answered, t.asking = .closing question answered → Backed t question) :
    Open t where
  waiting := hwaiting
  question := hquestion
  closing := hclosing
  update request handle choice hr := by
    rw [hsame, h.idle_request hmutex] at hr
    cases hr
  replay request handle choice hr := by
    rw [hsame, h.idle_request hmutex] at hr
    cases hr

/-- Only one request runs: the one that holds the mutex. -/
theorem Open.other_idle (h : Open s) {other : Nat} (hmutex : s.mutex = some request)
    (hne : other ≠ request) : s.requests other = .idle := by
  cases hr : s.requests other with
  | idle => rfl
  | update handle choice => exact absurd (Option.some.inj ((h.update _ _ _ hr).1.symm.trans hmutex)) hne
  | replay handle choice => exact absurd (Option.some.inj ((h.replay _ _ _ hr).symm.trans hmutex)) hne

/-- A request that holds the mutex ends. -/
theorem Open.ends (h : Open s) (hmutex : s.mutex = some request) (hkept : Kept s t)
    (hasking : t.asking = s.asking) (hrequests : t.requests = Function.update s.requests request .idle)
    (hsome : t.call.question.isSome = s.call.question.isSome)
    (hquestion : ∀ question, t.call.question = some question → Backed t question) : Open t := by
  have hidle : ∀ other, t.requests other = .idle := by
    intro other
    rw [hrequests]
    by_cases hother : other = request
    · rw [hother, Function.update_self]
    · rw [Function.update_of_ne hother, h.other_idle hmutex hother]
  refine ⟨?_, hquestion, ?_, ?_, ?_⟩
  · rw [hasking, hsome]
    exact h.waiting
  · intro question answered hclosing
    exact (h.closing question answered (hasking ▸ hclosing)).kept hkept
  · intro other handle choice hr
    cases (hidle other).symm.trans hr
  · intro other handle choice hr
    cases (hidle other).symm.trans hr

/-- A request that holds the mutex goes on, and no other runs. -/
theorem Open.turns (h : Open s) {pc : RequestPc}
    (hothers : ∀ other, other ≠ request → s.requests other = .idle) (hkept : Kept s t)
    (hasking : t.asking = s.asking) (hcall : t.call.question = s.call.question)
    (hmutex : t.mutex = some request) (hrequests : t.requests = Function.update s.requests request pc)
    (hpc : ∀ handle choice, pc = .update handle choice → ∃ question, s.call.question = some question ∧
      question.handle = handle ∧ choice < question.choices.length) : Open t where
  waiting := by rw [hasking, hcall]; exact h.waiting
  question question hq := (h.question question (hcall ▸ hq)).kept hkept
  closing question answered hq := (h.closing question answered (hasking ▸ hq)).kept hkept
  update other handle choice hr := by
    rw [hrequests] at hr
    by_cases hother : other = request
    · subst hother
      rw [Function.update_self] at hr
      rw [hcall]
      exact ⟨hmutex, hpc handle choice hr⟩
    · rw [Function.update_of_ne hother, hothers other hother] at hr
      cases hr
  replay other handle choice hr := by
    rw [hrequests] at hr
    by_cases hother : other = request
    · rw [hother, hmutex]
    · rw [Function.update_of_ne hother, hothers other hother] at hr
      cases hr

theorem Open.holds_mutex (h : Open s) {handle : Bytes} {choice : Nat}
    (hr : s.requests request = .update handle choice ∨ s.requests request = .replay handle choice) :
    s.mutex = some request := by
  rcases hr with hr | hr
  · exact (h.update _ _ _ hr).1
  · exact h.replay _ _ _ hr

theorem Open.no_question (h : Open s) (hasking : s.asking ≠ .waiting) : s.call.question = none := by
  cases hq : s.call.question with
  | none => rfl
  | some question => exact absurd (h.waiting.mpr (by rw [hq]; rfl)) hasking

theorem Step.keeps_open (h : Open s) (hstep : Step s t) : Open t := by
  have hkept := hstep.kept
  cases hstep with
  | time | other | cancel | finish | turnAway | unoffered => exact h.frame hkept rfl rfl rfl rfl
  | decline question hidle => exact {h with
      waiting := by
        have hnone := h.no_question (by rw [hidle]; nofun)
        simp [State.tell, hnone]
      closing := nofun}
  | publishFails question expiresAt hidle hmutex hnone =>
    refine h.asks hmutex rfl ?_ ?_ nofun
    · simp [State.tell, State.write, hnone]
    · intro question' hq
      exact absurd (hnone.symm.trans hq) nofun
  | publish question expiresAt hidle hmutex hnone _ _ _ hanswer =>
    refine h.asks hmutex rfl ?_ ?_ nofun
    · simp
    · rintro question' hq
      obtain rfl : question = question' := Option.some.inj hq
      refine ⟨s.rowOf question expiresAt, Function.update_self .., ⟨rfl, rfl, rfl⟩, rfl, ?_⟩
      intro choice hchoice
      exact absurd (hanswer.symm.trans hchoice) nofun
  | wake question ready hwaiting hmutex hq =>
    refine h.asks hmutex rfl ?_ nofun ?_
    · simp
    · intro question' answered hclosing
      cases hclosing
      exact (h.question question hq).kept hkept
  | close question answered row hclosing | closeFails question answered _ row hclosing =>
    have hnone := h.no_question (by rw [hclosing]; nofun)
    refine {h with waiting := ?_, question := ?_, closing := nofun}
    · simp [State.tell, State.write, hnone]
    · intro question' hq
      exact absurd (hnone.symm.trans hq) nofun
  | beginActive request command control handle choice question hidle hmutex _ hactive hq hlt =>
    have hhandle : question.handle = handle := by
      simp only [State.active, hq, Option.any_some, Bool.and_eq_true, decide_eq_true_eq] at hactive
      exact hactive.2
    refine h.turns (fun other _ => h.idle_request hmutex other) hkept rfl rfl rfl rfl ?_
    rintro _ _ ⟨⟩
    exact ⟨question, hq, hhandle, hlt⟩
  | beginInactive request command control handle choice hidle hmutex =>
    exact h.turns (fun other _ => h.idle_request hmutex other) hkept rfl rfl rfl rfl nofun
  | updateNone request handle choice hr =>
    have hmutex := h.holds_mutex (.inl hr)
    exact h.turns (fun other hother => h.other_idle hmutex hother) hkept rfl rfl hmutex rfl nofun
  | updateFails request handle choice hr | updateLost request handle choice row hr =>
    exact h.ends (h.holds_mutex (.inl hr)) hkept rfl rfl rfl fun question hq => (h.question question hq).kept hkept
  | replay request handle choice hr | replayFails request handle choice hr =>
    exact h.ends (h.holds_mutex (.inr hr)) hkept rfl rfl rfl fun question hq => (h.question question hq).kept hkept
  | update request handle choice row question hr hrow htakes hq =>
    obtain ⟨hmutex, question', hq', hhandle, -⟩ := h.update _ _ _ hr
    obtain rfl : question = question' := Option.some.inj (hq.symm.trans hq')
    refine h.ends hmutex hkept rfl rfl ?_ ?_
    · simp [State.respond, hq]
    · rintro _ ⟨rfl⟩
      obtain ⟨row', hrow', -, hchoices, -⟩ := h.question question hq
      obtain rfl : row = row' := by
        rw [hhandle] at hrow'
        exact Option.some.inj (hrow.symm.trans hrow')
      refine ⟨{row with answer := some choice}, ?_, htakes.1, hchoices, fun _ heq => heq⟩
      rw [← hhandle]
      exact Function.update_self ..

end Agiru.Dialog
