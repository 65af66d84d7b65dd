import Agiru.Dialog.Answers

/-! A dialog is answered once, and the program sees that answer. -/
namespace Agiru.Dialog
open Bytes

variable {s t : State}
variable {handle : Bytes}

/-- The row of a dialog of the call has a choice, one of those offered. -/
def Holds (s : State) (handle : Bytes) (choice : Nat) : Prop :=
  ∃ row, s.dialogs handle = some row ∧ s.owns row ∧ row.answer = some choice ∧ choice < row.choices

/-- What a request that ended was told, against the row that it saw and the row as it is. -/
def Right (s : State) (answered : Answered) : Prop :=
  match answered.response with
  | .recorded => Holds s answered.handle answered.choice ∧
      ∃ row, answered.row = some row ∧ s.owns row ∧ row.closed = false ∧ row.answer = none ∧
        answered.time < row.expiresAt ∧ answered.choice < row.choices
  | .replayed => Holds s answered.handle answered.choice ∧
      ∃ row, answered.row = some row ∧ s.owns row ∧ answered.time < row.expiresAt ∧
        row.answer = some answered.choice
  | .stale => ∀ row, answered.row = some row → s.owns row → answered.time < row.expiresAt →
      row.answer ≠ some answered.choice
  | .input => ∃ row, s.dialogs answered.handle = some row ∧ s.owns row ∧ row.choices ≤ answered.choice
  | .failed => True

/-- What is told of the questions and the requests agrees with the rows. -/
structure Told (s : State) : Prop where
  offered : ∀ handle row choice, s.dialogs handle = some row → s.owns row →
    row.answer = some choice → choice < row.choices
  returned : ∀ question choice, (question, .returned choice) ∈ s.asked →
    choice < question.choices.length ∧ Holds s question.handle choice
  right : ∀ answered ∈ s.answers, Right s answered
  once : s.answers.Pairwise fun answered before =>
    answered.response = .recorded → before.response = .recorded → answered.handle ≠ before.handle
  /-- A request gave the choice, for this dialog. -/
  given : ∀ handle choice, Holds s handle choice → ∃ answered ∈ s.answers,
    answered.handle = handle ∧ answered.choice = choice ∧
      (answered.response = .recorded ∨ answered.response = .failed)

/-! ### What a step keeps -/

theorem Holds.kept {choice : Nat} (h : Holds s handle choice) (hkept : Kept s t) : Holds t handle choice := by
  obtain ⟨row, hrow, howns, hanswer, hlt⟩ := h
  obtain ⟨row', hrow', hlater⟩ := hkept.rows handle row hrow howns
  refine ⟨row', hrow', (hkept.same.owns_iff row').mpr ((owns_later hlater).mpr howns), ?_, ?_⟩
  · exact hlater.answer choice hanswer
  · rwa [hlater.choices]

theorem Right.kept {answered : Answered} (h : Right s answered) (hkept : Kept s t) : Right t answered := by
  have howns := hkept.same.owns_iff
  unfold Right at *
  cases hresponse : answered.response with
  | recorded | replayed =>
    simp only [hresponse] at h ⊢
    obtain ⟨hholds, row, hrow, hown, hrest⟩ := h
    exact ⟨hholds.kept hkept, row, hrow, (howns row).mpr hown, hrest⟩
  | input =>
    simp only [hresponse] at h ⊢
    obtain ⟨row, hrow, hown, hle⟩ := h
    obtain ⟨row', hrow', hlater⟩ := hkept.rows _ row hrow hown
    refine ⟨row', hrow', (howns row').mpr ((owns_later hlater).mpr hown), ?_⟩
    rwa [hlater.choices]
  | stale =>
    simp only [hresponse] at h ⊢
    exact fun row hrow hown => h row hrow ((howns row).mp hown)
  | failed => trivial

/-- A request records a choice. -/
def Given (s t : State) (handle : Bytes) (choice : Nat) : Prop :=
  (∃ request, s.requests request = .update handle choice) ∧
    ∃ answered, t.answers = answered :: s.answers ∧ answered.handle = handle ∧
      answered.choice = choice ∧ (answered.response = .recorded ∨ answered.response = .failed)

/-- The answers of the rows of the call are those that were there, and one that a request gave. -/
def Gives (s t : State) : Prop :=
  ∀ handle row choice, t.dialogs handle = some row → t.owns row → row.answer = some choice →
    (∃ row', s.dialogs handle = some row' ∧ s.owns row' ∧ row'.answer = some choice ∧ row'.choices = row.choices) ∨
    (choice < row.choices ∧ Given s t handle choice)

theorem Gives.of_dialogs (hsame : SameCall s t) (h : t.dialogs = s.dialogs) : Gives s t :=
  fun _ row _ hrow howns hanswer => .inl ⟨row, h ▸ hrow, (hsame.owns_iff row).mp howns, hanswer, rfl⟩

/-- One row is written. -/
theorem Gives.of_write {row : DialogRow} (hsame : SameCall s t)
    (h : t.dialogs = Function.update s.dialogs handle (some row))
    (hrow : ∀ choice, t.owns row → row.answer = some choice →
      (∃ row', s.dialogs handle = some row' ∧ s.owns row' ∧ row'.answer = some choice ∧ row'.choices = row.choices) ∨
      (choice < row.choices ∧ Given s t handle choice)) :
    Gives s t := by
  intro handle' row' choice hrow' howns hanswer
  rw [h] at hrow'
  by_cases heq : handle' = handle
  · subst heq
    rw [Function.update_self] at hrow'
    obtain rfl : row = row' := Option.some.inj hrow'
    exact hrow choice howns hanswer
  · rw [Function.update_of_ne heq] at hrow'
    exact .inl ⟨row', hrow', (hsame.owns_iff row').mp howns, hanswer, rfl⟩

theorem Step.gives (h : Step s t) : Gives s t := by
  cases h with
  | time | cancel | finish | decline | wake | turnAway | unoffered | beginActive | beginInactive | updateNone
  | updateFails | replay | replayFails => exact .of_dialogs ⟨rfl, rfl, rfl⟩ rfl
  | other dialogs hother =>
    exact fun handle row choice hrow howns hanswer =>
      .inl ⟨row, hother.2 handle row hrow howns.1, howns, hanswer, rfl⟩
  | publishFails question expiresAt | publish question expiresAt =>
    exact .of_write ⟨rfl, rfl, rfl⟩ rfl fun choice _ hanswer => nomatch hanswer
  | close question answered row _ hrow | closeFails question answered kept row _ hrow =>
    refine .of_write ⟨rfl, rfl, rfl⟩ rfl fun choice howns hanswer => ?_
    exact .inl ⟨row, hrow, howns, hanswer, rfl⟩
  | update request handle choice row question hr _ htakes | updateLost request handle choice row hr _ htakes =>
    refine .of_write ⟨rfl, rfl, rfl⟩ rfl fun choice' _ hanswer => .inr ?_
    cases hanswer
    exact ⟨htakes.2.2.2.2, ⟨request, hr⟩, _, rfl, rfl, rfl, by simp⟩

theorem seen_any {choice : Nat} : ((s.seen handle).any fun row => row.answer = some choice) = true ↔
      ∃ row, s.dialogs handle = some row ∧ s.owns row ∧ s.clock < row.expiresAt ∧
        row.answer = some choice := by
  simp only [State.seen, Option.any_eq_true, Option.filter_eq_some_iff, decide_eq_true_eq]
  constructor
  · rintro ⟨row, ⟨hrow, howns, hlt⟩, hanswer⟩
    exact ⟨row, hrow, howns, hlt, hanswer⟩
  · rintro ⟨row, hrow, howns, hlt, hanswer⟩
    exact ⟨row, ⟨hrow, howns, hlt⟩, hanswer⟩

/-- What a step tells of a request. -/
theorem Step.tells (hopen : Open s) (htold : Told s) (h : Step s t) :
    t.answers = s.answers ∨ ∃ answered, t.answers = answered :: s.answers ∧ Right t answered ∧
      (answered.response = .recorded → ∀ choice, ¬ Holds s answered.handle choice) := by
  have hkept := h.kept
  cases h with
  | time | other | cancel | finish | decline | publishFails | publish | wake | close | closeFails | beginActive
  | beginInactive | updateNone => exact .inl rfl
  | turnAway | updateFails | replayFails | updateLost => exact .inr ⟨_, rfl, trivial, (by intro hnone; cases hnone)⟩
  | unoffered command control handle choice question _ _ hactive hq hle =>
    obtain ⟨row, hrow, howns, hchoices, -⟩ := hopen.question question hq
    have hhandle : question.handle = handle := by
      simp only [State.active, hq, Option.any_some, Bool.and_eq_true, decide_eq_true_eq] at hactive
      exact hactive.2
    refine .inr ⟨_, rfl, ⟨row, ?_, howns, ?_⟩, (by intro hnone; cases hnone)⟩
    · rw [← hhandle]
      exact hrow
    · rwa [hchoices]
  | update request handle choice row question hr hrow htakes hq =>
    refine .inr ⟨_, rfl, ⟨⟨{row with answer := some choice}, ?_, htakes.1, rfl, htakes.2.2.2.2⟩, row, rfl, htakes⟩, ?_⟩
    · exact Function.update_self ..
    · rintro - choice' ⟨row', hrow', -, hanswer, -⟩
      obtain rfl : row = row' := Option.some.inj (hrow.symm.trans hrow')
      exact absurd (htakes.2.2.1.symm.trans hanswer) (by intro hnone; cases hnone)
  | replay request handle choice hr =>
    refine .inr ⟨_, rfl, ?_, ?_⟩
    · by_cases hseen : (s.seen handle).any (fun row => row.answer = some choice) = true
      · obtain ⟨row, hrow, howns, hlt, hanswer⟩ := seen_any.mp hseen
        simp only [Right, hseen, if_true, State.respond]
        exact ⟨⟨row, hrow, howns, hanswer, htold.offered handle row choice hrow howns hanswer⟩,
          row, hrow, howns, hlt, hanswer⟩
      · simp only [Right, hseen, Bool.false_eq_true, if_false, State.respond]
        exact fun row hrow howns hlt hanswer => hseen (seen_any.mpr ⟨row, hrow, howns, hlt, hanswer⟩)
    · split <;> (intro hnone; cases hnone)

/-- What a step tells of the question that `Ask` ends with. -/
theorem Step.asks (hopen : Open s) (htold : Told s) (h : Step s t) :
    t.asked = s.asked ∨ ∃ question outcome, t.asked = (question, outcome) :: s.asked ∧
      ∀ choice, outcome = .returned choice → choice < question.choices.length ∧ Holds s question.handle choice := by
  cases h with
  | time | other | cancel | finish | publish | wake | turnAway | unoffered | beginActive | beginInactive | update
  | updateNone | updateFails | updateLost | replay | replayFails => exact .inl rfl
  | decline | publishFails | closeFails => exact .inr ⟨_, _, rfl, nofun⟩
  | close question answered row hclosing =>
    refine .inr ⟨_, _, rfl, fun choice hreturned => ?_⟩
    obtain ⟨row', hrow, howns, hchoices, hanswer⟩ := hopen.closing question answered hclosing
    have hsome : question.answer = some choice := by
      split at hreturned
      · rename_i choice' hchoice
        cases hreturned
        exact hchoice
      · cases hreturned
    have hlt := htold.offered _ row' choice hrow howns (hanswer choice hsome)
    exact ⟨hchoices ▸ hlt, row', hrow, howns, hanswer choice hsome, hlt⟩

theorem Step.keeps_told (hopen : Open s) (htold : Told s) (h : Step s t) : Told t where
  offered handle row choice hrow howns hanswer := by
    rcases h.gives handle row choice hrow howns hanswer with ⟨row', hrow', howns', hanswer', hchoices⟩ | ⟨hlt, -⟩
    · rw [← hchoices]
      exact htold.offered handle row' choice hrow' howns' hanswer'
    · exact hlt
  returned question choice hmem := by
    rcases h.asks hopen htold with heq | ⟨question', outcome, heq, hreturned⟩
    · rw [heq] at hmem
      obtain ⟨hlt, hholds⟩ := htold.returned question choice hmem
      exact ⟨hlt, hholds.kept h.kept⟩
    · rw [heq] at hmem
      rcases List.mem_cons.mp hmem with hhead | hmem
      · cases hhead
        obtain ⟨hlt, hholds⟩ := hreturned choice rfl
        exact ⟨hlt, hholds.kept h.kept⟩
      · obtain ⟨hlt, hholds⟩ := htold.returned question choice hmem
        exact ⟨hlt, hholds.kept h.kept⟩
  right answered hmem := by
    rcases h.tells hopen htold with heq | ⟨answered', heq, hright, -⟩
    · rw [heq] at hmem
      exact (htold.right answered hmem).kept h.kept
    · rw [heq] at hmem
      rcases List.mem_cons.mp hmem with rfl | hmem
      · exact hright
      · exact (htold.right answered hmem).kept h.kept
  once := by
    rcases h.tells hopen htold with heq | ⟨answered, heq, -, hfirst⟩
    · rw [heq]
      exact htold.once
    · rw [heq, List.pairwise_cons]
      refine ⟨fun before hmem hrecorded hbefore hsame => ?_, htold.once⟩
      have hright := htold.right before hmem
      rw [Right, hbefore] at hright
      exact hfirst hrecorded before.choice (hsame ▸ hright.1)
  given handle choice hholds := by
    obtain ⟨row, hrow, howns, hanswer, hlt⟩ := hholds
    rcases h.gives handle row choice hrow howns hanswer with ⟨row', hrow', howns', hanswer', hchoices⟩ |
        ⟨-, -, answered, heq, hrest⟩
    · obtain ⟨answered, hmem, hrest⟩ := htold.given handle choice ⟨row', hrow', howns', hanswer', hchoices ▸ hlt⟩
      refine ⟨answered, ?_, hrest⟩
      rcases h.tells hopen htold with heq | ⟨answered', heq, -, -⟩
      · rwa [heq]
      · rw [heq]
        exact List.mem_cons_of_mem _ hmem
    · exact ⟨answered, heq ▸ List.mem_cons_self, hrest⟩

/-! ### A dialog that ended without an answer -/

/-- The dialog was published, has no answer, and is not the open question. -/
def Ended (s : State) (handle : Bytes) : Prop :=
  (∃ row, s.dialogs handle = some row ∧ s.owns row ∧ row.answer = none) ∧
    ∀ question, s.call.question = some question → question.handle ≠ handle

/-- The open question after a step was open before, or has a row that is new. -/
theorem Step.opens (h : Step s t) {question : PageQuestion} (hq : t.call.question = some question) :
    (∃ before, s.call.question = some before ∧ before.handle = question.handle) ∨
      s.dialogs question.handle = none := by
  cases h with
  | time | other | cancel | finish | decline | publishFails | close | closeFails | turnAway | unoffered | beginActive
  | beginInactive | updateNone | updateFails | updateLost | replay | replayFails => exact .inl ⟨question, hq, rfl⟩
  | publish question' expiresAt _ _ _ _ _ _ _ hnone =>
    cases hq
    exact .inr hnone
  | wake => cases hq
  | update request handle choice row before _ _ _ hbefore =>
    cases hq
    exact .inl ⟨before, hbefore, rfl⟩

theorem Step.keeps_ended (hopen : Open s) (hended : Ended s handle) (h : Step s t) : Ended t handle := by
  obtain ⟨⟨row, hrow, howns, hnone⟩, hquestion⟩ := hended
  obtain ⟨row', hrow', hlater⟩ := h.kept.rows handle row hrow howns
  have howns' := (h.kept.same.owns_iff row').mpr ((owns_later hlater).mpr howns)
  refine ⟨⟨row', hrow', howns', ?_⟩, fun question hq heq => ?_⟩
  · cases hanswer : row'.answer with
    | none => rfl
    | some choice =>
      exfalso
      rcases h.gives handle row' choice hrow' howns' hanswer with
        ⟨before, hbefore, -, hgiven, -⟩ | ⟨-, ⟨request, hr⟩, -⟩
      · obtain rfl : row = before := Option.some.inj (hrow.symm.trans hbefore)
        exact absurd (hnone.symm.trans hgiven) nofun
      · obtain ⟨-, question, hq, hhandle, -⟩ := hopen.update _ _ _ hr
        exact hquestion question hq hhandle
  · rcases h.opens hq with ⟨before, hbefore, hsame⟩ | hfresh
    · exact hquestion before hbefore (hsame.trans heq)
    · rw [heq] at hfresh
      exact absurd (hfresh.symm.trans hrow) nofun

theorem Ended.not_holds {choice : Nat} (h : Ended s handle) : ¬ Holds s handle choice := by
  rintro ⟨row, hrow, -, hanswer, -⟩
  obtain ⟨⟨row', hrow', -, hnone⟩, -⟩ := h
  obtain rfl : row = row' := Option.some.inj (hrow.symm.trans hrow')
  exact absurd (hnone.symm.trans hanswer) nofun

/-! ### Runs -/

theorem Reached.kept (h : Reached s) : Open s ∧ Told s := by
  refine Undo.Reachable.invariant (I := fun s => Open s ∧ Told s) ?_ ?_ h
  · rintro _ ⟨clock, handle, user, host, dialogs, hfree, rfl⟩
    refine ⟨⟨by simp, nofun, nofun, nofun, nofun⟩, ⟨?_, nofun, nofun, .nil, ?_⟩⟩
    · intro handle' row choice hrow howns
      exact absurd howns.1 (hfree handle' row hrow)
    · rintro handle' choice ⟨row, hrow, howns, -⟩
      exact absurd howns.1 (hfree handle' row hrow)
  · rintro s t ⟨hopen, htold⟩ hstep
    exact ⟨hstep.keeps_open hopen, hstep.keeps_told hopen htold⟩

/-- What is later than a state of a run. -/
theorem run_kept (h : Reached s) (hrun : Relation.ReflTransGen Step s t) :
    Reached t ∧ Kept s t ∧ ∃ newer, t.answers = newer ++ s.answers ∧ ∀ handle, Ended s handle →
      Ended t handle ∧ ∀ answered ∈ newer, answered.handle = handle →
        answered.response ≠ .recorded ∧ answered.response ≠ .replayed := by
  induction hrun with
  | refl => exact ⟨h, .refl s, [], rfl, fun handle hended => ⟨hended, nofun⟩⟩
  | @tail t u _ hstep ih =>
    obtain ⟨hreached, hkept, newer, hnewer, hlater⟩ := ih
    obtain ⟨hopen, htold⟩ := hreached.kept
    refine ⟨hreached.step hstep, hkept.trans hstep.kept, ?_⟩
    rcases hstep.tells hopen htold with heq | ⟨answered, heq, hright, -⟩
    · refine ⟨newer, heq.trans hnewer, fun handle hended => ?_⟩
      obtain ⟨hended', hrefused⟩ := hlater handle hended
      exact ⟨hstep.keeps_ended hopen hended', hrefused⟩
    · refine ⟨answered :: newer, by rw [heq, hnewer, List.cons_append], fun handle hended => ?_⟩
      obtain ⟨hended', hrefused⟩ := hlater handle hended
      have hended'' := hstep.keeps_ended hopen hended'
      refine ⟨hended'', fun answered' hmem hhandle => ?_⟩
      rcases List.mem_cons.mp hmem with rfl | hmem
      · subst hhandle
        constructor
        · intro hrecorded
          rw [Right, hrecorded] at hright
          exact hended''.not_holds hright.1
        · intro hreplayed
          rw [Right, hreplayed] at hright
          exact hended''.not_holds hright.1
      · exact hrefused answered' hmem hhandle

/-- A request that is told that the choice is recorded already, stale or not offered changes
nothing. -/
theorem Step.without_effect {answered : Answered} (h : Step s t) (hanswers : t.answers = answered :: s.answers)
    (hrecorded : answered.response ≠ .recorded) (hfailed : answered.response ≠ .failed) :
    t.dialogs = s.dialogs ∧ t.call = s.call := by
  cases h with
  | time | other | cancel | finish | decline | publishFails | publish | wake | close | closeFails | beginActive
  | beginInactive | updateNone =>
    exact absurd (congrArg List.length hanswers) (by simp [State.tell, State.write])
  | turnAway | unoffered | replay | replayFails | updateFails => exact ⟨rfl, rfl⟩
  | updateLost =>
    cases hanswers
    exact absurd rfl hfailed
  | update =>
    cases hanswers
    exact absurd rfl hrecorded

/-! ### One answer for each dialog -/

/-- **A dialog is answered once, and the program sees that answer.** -/
theorem dialog_answered_once (h : Reached s) :
    -- at most one choice is recorded for a dialog, one of those offered, given for that dialog
    (∀ handle row choice, s.dialogs handle = some row → s.owns row → row.answer = some choice →
      choice < row.choices ∧ ∃ answered ∈ s.answers, answered.handle = handle ∧
        answered.choice = choice ∧ (answered.response = .recorded ∨ answered.response = .failed)) ∧
    (s.answers.Pairwise fun answered before =>
      answered.response = .recorded → before.response = .recorded → answered.handle ≠ before.handle) ∧
    (∀ t, Relation.ReflTransGen Step s t → ∀ handle choice, Holds s handle choice → Holds t handle choice) ∧
    -- `Ask` returns the choice that its dialog holds, or raises
    (∀ question outcome, (question, outcome) ∈ s.asked → outcome = .raised ∨
      ∃ choice, outcome = .returned choice ∧ choice < question.choices.length ∧
        Holds s question.handle choice) ∧
    (s.asking = .idle → s.call.question = none) ∧
    -- what a request is told
    (∀ answered ∈ s.answers, Right s answered) ∧
    (∀ t answered, Step s t → t.answers = answered :: s.answers → answered.response ≠ .recorded →
      answered.response ≠ .failed → t.dialogs = s.dialogs ∧ t.call = s.call) ∧
    -- a dialog that ended without an answer takes none
    (∀ t, Relation.ReflTransGen Step s t → ∃ newer, t.answers = newer ++ s.answers ∧
      ∀ handle, Ended s handle → Ended t handle ∧ ∀ answered ∈ newer, answered.handle = handle →
        answered.response ≠ .recorded ∧ answered.response ≠ .replayed) := by
  obtain ⟨hopen, htold⟩ := h.kept
  refine ⟨?_, htold.once, ?_, ?_, ?_, htold.right, ?_, ?_⟩
  · intro handle row choice hrow howns hanswer
    have hlt := htold.offered handle row choice hrow howns hanswer
    exact ⟨hlt, htold.given handle choice ⟨row, hrow, howns, hanswer, hlt⟩⟩
  · intro t hrun handle choice hholds
    exact hholds.kept (run_kept h hrun).2.1
  · intro question outcome hmem
    cases outcome with
    | raised => exact .inl rfl
    | returned choice => exact .inr ⟨choice, rfl, htold.returned question choice hmem⟩
  · intro hidle
    exact hopen.no_question (by rw [hidle]; nofun)
  · intro t answered hstep hanswers hrecorded hfailed
    exact hstep.without_effect hanswers hrecorded hfailed
  · intro t hrun
    exact (run_kept h hrun).2.2

/-! ### A run -/

/-- A confirmation. -/
def confirm : PageQuestion where
  handle := ascii "d"
  kind := ascii "confirm"
  prompt := ascii "Post?"
  choices := [ascii "Yes", ascii "No"]

theorem parse_confirm : parseAnswer (ascii "d_0") (ascii "$agiru.answer_d_0") = some (ascii "d", 0) := by
  have hsplit : splitCommand (ascii "d_0") = some (ascii "d", ascii "0") := by decide
  have hcontrol : ascii "$agiru.answer_d_0" = ascii "$agiru.answer_" ++ ascii "d_0" := by decide
  have hchoice : choiceOf (ascii "0") = some 0 := by simp [choiceOf, natText, ascii]; decide
  simp [parseAnswer, hsplit, hcontrol, hchoice]

/-- The call asks, the first choice is recorded and returned. -/
theorem confirm_run : ∃ s, Reached s ∧ s.call.question = none ∧ s.mutex = none ∧ s.clock = 0 ∧
    (∀ request, s.requests request = .idle) ∧
    s.dialogs confirm.handle = some ⟨[], Guid.zero, [], 2, some 0, true, 10⟩ ∧
    s.owns ⟨[], Guid.zero, [], 2, some 0, true, 10⟩ ∧ ({confirm with answer := some 0}, .returned 0) ∈ s.asked ∧
    ∃ answered ∈ s.answers, answered.handle = confirm.handle ∧ answered.choice = 0 ∧
      answered.response = .recorded := by
  have h : Reached {call := ⟨[], Guid.zero, [], none, 0, false, false⟩} :=
    ⟨_, ⟨0, [], Guid.zero, [], fun _ => none, nofun, rfl⟩, .refl⟩
  have h := h.step (.publish confirm 10 rfl rfl rfl rfl rfl (by decide) rfl rfl (by decide))
  have h := h.step (.beginActive 0 _ _ _ 0 confirm rfl rfl parse_confirm (by decide) rfl (by decide))
  have h := h.step (.update 0 (ascii "d") 0 ⟨[], Guid.zero, [], 2, none, false, 10⟩ confirm rfl rfl (by decide) rfl)
  have h := h.step (.wake {confirm with answer := some 0} true rfl rfl rfl)
  have h := h.step (.close {confirm with answer := some 0} true ⟨[], Guid.zero, [], 2, some 0, false, 10⟩ rfl rfl)
  refine ⟨_, h, rfl, rfl, rfl, fun request => ?_, ?_, by decide, List.mem_cons_self, _, List.mem_cons_self, rfl, rfl, rfl⟩
  · by_cases hrequest : request = 0
    · rw [hrequest]
      rfl
    · exact (Function.update_of_ne hrequest ..).trans (Function.update_of_ne hrequest ..)
  · rfl

/-- The returned choice is the one in the row. -/
theorem confirm_answered : ∃ s, Reached s ∧ s.call.question = none ∧ Holds s confirm.handle 0 := by
  obtain ⟨s, hreached, hquestion, -, -, -, -, -, hasked, -⟩ := confirm_run
  obtain ⟨-, -, -, hreturned, -⟩ := dialog_answered_once hreached
  rcases hreturned _ _ hasked with hraised | ⟨choice, heq, -, hholds⟩
  · cases hraised
  · cases heq
    exact ⟨s, hreached, hquestion, hholds⟩

/-- Once the row has expired, a request that repeats the recorded choice is refused. -/
theorem late_repeat_refused : ¬ ∀ s, Reached s → ∀ answered older, s.answers = answered :: older →
    (∃ before ∈ older, before.handle = answered.handle ∧ before.choice = answered.choice ∧
      before.response = .recorded) →
    answered.response ≠ .failed → answered.response = .replayed := by
  intro hrepeated
  obtain ⟨s, h, hquestion, hmutex, hclock, hidle, hrow, howns, -, before, hmem, hrecorded⟩ := confirm_run
  have hinactive : s.active confirm.handle = false := by simp [State.active, hquestion]
  have h := h.step (.time 10 (by rw [hclock]; decide))
  have h := h.step (.beginInactive 0 _ _ _ 0 (hidle 0) hmutex parse_confirm hinactive)
  have hreplay : Function.update s.requests 0 (.replay confirm.handle 0) 0 = .replay confirm.handle 0 :=
    Function.update_self ..
  have h := h.step (.replay 0 confirm.handle 0 hreplay)
  have hreplayed := hrepeated _ h _ _ rfl ⟨before, hmem, hrecorded⟩ (by dsimp only; split <;> intro hnone <;> cases hnone)
  have hright := (Reached.kept h).2.right _ List.mem_cons_self
  rw [Right, hreplayed] at hright
  obtain ⟨-, row, hrow', -, hlt, -⟩ := hright
  obtain rfl := Option.some.inj (hrow.symm.trans hrow')
  exact absurd hlt (Int.lt_irrefl 10)

end Agiru.Dialog
