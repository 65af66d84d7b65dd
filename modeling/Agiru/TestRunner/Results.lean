import Agiru.TestRunner.Whole

/-! What a run reports: one result for each method that ran or was refused, and for each `OnRun` that failed. -/
namespace Agiru.TestRunner
open Procedure
open Transaction (Session Linked)

variable {δ : Type} {α : Type} {refused : Bytes}
variable {p : Run δ α}

/-- The name under which a part is reported. -/
def Trace.reported (t : Trace δ) : Option Bytes :=
  match t.part with
  | .method name _ => some name
  | .refused name => some name
  | .onRun => if t.passed then none else some (Bytes.ascii "OnRun")
  | .codeunit => none

/-- The results are those of the traced parts, but for some that are still to be appended. -/
def Reported (pending : List Bytes) (r : Runner δ) : Prop :=
  r.run.results.map TestResult.method ++ pending = r.traces.filterMap Trace.reported

/-- What only the session and its course change. -/
def Silent (P : Runner δ → Prop) : Prop := ∀ r session course, P r → P {r with session, course}

theorem silent_reported (pending : List Bytes) : Silent (Reported (δ := δ) pending) := fun _ _ _ h => h

section
variable {P : Runner δ → Prop} (h : Silent P)
include h

theorem keeps_boundaries (p : Transaction.Run δ α) : Keeps P (boundaries p) := by
  intro r hr
  rcases hrun : exec p r.session with ⟨result, t⟩
  rw [exec_boundaries hrun]
  exact h r t r.course hr

omit h in
theorem keeps_attempt (hp : Keeps P p) : Keeps P (attempt p) := by
  intro r hr
  rw [exec_attempt]
  exact hp r hr

theorem keeps_call (auto : Bool) (code : Code δ) : Keeps P (call auto code) := by
  intro r hr
  rw [exec_call]
  exact h r _ _ hr

theorem keeps_unwinding (hp : Keeps P p) (depth : Nat) : Keeps P (unwinding depth p) := by
  unfold unwinding
  exact .tryCatch hp fun e => .bind (keeps_attempt (keeps_boundaries h _)) fun _ => .throw _

theorem keeps_isolated (hp : Keeps P p) : Keeps P (isolated p) := by
  have hrethrow : ∀ outcome : Except Raised α, Keeps P (rethrow outcome : Run δ α) := by
    intro outcome r hr
    rw [exec_rethrow]
    exact hr
  unfold isolated
  refine .bind (keeps_boundaries h _) fun depth => .bind (keeps_boundaries h _) fun previous => ?_
  refine .bind (keeps_attempt ?_) fun outcome => .bind (keeps_boundaries h _) fun _ => hrethrow outcome
  exact .bind (keeps_unwinding h hp depth) fun a => .bind (keeps_boundaries h _) fun _ => .pure _

theorem keeps_discard (depth : Nat) (result : TestResult) : Keeps P (do
    boundaries (Transaction.rollback depth)
    return result : Run δ TestResult) := .bind (keeps_boundaries h _) fun _ => .pure _

theorem keeps_returned (result : Bool → Bytes → TestResult) (auto commitOnSuccess : Bool) (depth : Nat)
    (missed : List Bytes) :
    Keeps P (returned refused result auto commitOnSuccess depth missed : Run δ TestResult) := by
  unfold returned
  refine .ite (keeps_discard h _ _) (.ite (keeps_discard h _ _) (.bind (keeps_attempt ?_) fun committed => ?_))
  · exact .ite (keeps_boundaries h _) (.pure _)
  · cases committed with
    | error raised => exact keeps_discard h _ _
    | ok _ => exact .bind (keeps_boundaries h _) fun _ => .pure _

theorem keeps_runOne (codeunit : Bytes) (method : TestMethod δ) (commitOnSuccess : Bool) :
    Keeps P (runOne refused codeunit method commitOnSuccess) := by
  unfold runOne
  refine .bind (keeps_boundaries h _) fun depth => .bind (keeps_attempt (keeps_call h _ _)) fun outcome => ?_
  cases outcome with
  | ok missed => exact keeps_returned h _ _ _ _ _
  | error raised =>
    cases raised with
    | foreign => exact keeps_unwinding h (.throw _) depth
    | _ => exact keeps_discard h _ _

end

/-! ### Names of results -/

theorem answers_runOne (codeunit : Bytes) (method : TestMethod δ) (commitOnSuccess : Bool) :
    Answers (fun result => result.method = method.name) (runOne refused codeunit method commitOnSuccess) := by
  have hdiscard : ∀ (depth : Nat) (passed : Bool) (error : Bytes),
      Answers (fun result : TestResult => result.method = method.name) (do
        boundaries (Transaction.rollback depth)
        return ⟨codeunit, method.name, passed, error⟩ : Run δ TestResult) :=
    fun depth passed error => .bind fun _ => .pure rfl
  unfold runOne
  refine .bind fun depth => .bind fun outcome => ?_
  cases outcome with
  | ok missed =>
    refine .ite (hdiscard _ _ _) (.ite (hdiscard _ _ _) (.bind fun committed => ?_))
    cases committed with
    | error raised => exact hdiscard _ _ _
    | ok _ => exact .bind fun _ => .pure rfl
  | error raised =>
    cases raised with
    | foreign => exact .tryCatch (.throw _) fun e => .bind fun _ => .throw _
    | _ => exact hdiscard _ _ _

theorem answers_isolated {Q : α → Prop} (h : Answers Q p) : Answers Q (isolated p) := by
  have hattempt : ∀ {q : Run δ α}, Answers Q q → Answers (fun outcome => ∀ a, outcome = .ok a → Q a)
      (attempt q) := by
    intro q hq r outcome r' hrun a heq
    rw [exec_attempt] at hrun
    cases hrun
    exact hq r a _ (Prod.ext heq rfl)
  have hunwinding : ∀ depth, Answers Q (unwinding depth p) :=
    fun depth => .tryCatch h fun e => .bind fun _ => .throw _
  unfold isolated withFloor
  refine .bind fun depth => .bind fun previous => .bind_of (hattempt ?_) fun outcome houtcome => .bind fun _ => ?_
  · exact .bind_of (hunwinding depth) fun a ha => .bind fun _ => .pure ha
  · cases outcome with
    | ok a => exact .pure (houtcome a rfl)
    | error e => exact .throw e

theorem answers_traced {Q : α → Prop} {part : Part} {passed : α → Bool} (h : Answers Q p) :
    Answers Q (traced part passed p) := by
  intro r a r' hrun
  rcases hbody : exec p {r with course := .start r.session} with ⟨outcome, r₁⟩
  rw [exec_traced part passed p r hbody] at hrun
  cases hrun
  exact h _ a r₁ hbody

/-! ### A run that returns -/

/-- The parts that a stretch of a run traces are those that it reports, with some results still to be appended. -/
def Reports (p : Run δ α) (pending : α → List Bytes) : Prop :=
  ∀ r a r', exec p r = (.ok a, r') → Reported [] r → Reported (pending a) r'

theorem Reports.bind {β : Type} {f : α → Run δ β} {pending : β → List Bytes}
    (hp : Reports p fun _ => []) (hf : ∀ a, Reports (f a) pending) : Reports (p >>= f) pending := by
  intro r b r'' hrun hr
  obtain ⟨a, r', hfirst, hrest⟩ := of_exec_bind hrun
  exact hf a r' b r'' hrest (hp r a r' hfirst hr)

theorem Reports.pure (a : α) : Reports (pure a : Run δ α) fun _ => [] := by
  intro r b r' hrun hr
  cases hrun
  exact hr

/-- Where a part was traced, its result is still to be appended. -/
theorem reported_traced {part : Part} {passed : α → Bool} (hp : Keeps (Reported []) p) {r r' : Runner δ}
    {outcome : Except Raised α} (hrun : exec (traced part passed p) r = (outcome, r')) (hr : Reported [] r) :
    ∃ r₁ trace, Reported [] r₁ ∧ trace.part = part ∧ trace.passed = passes passed outcome ∧
      r' = {r₁ with traces := r₁.traces ++ [trace]} := by
  rcases hbody : exec p {r with course := .start r.session} with ⟨result, r₁⟩
  have hkept := hp {r with course := .start r.session} hr
  rw [hbody] at hkept
  rw [exec_traced part passed p r hbody] at hrun
  cases hrun
  exact ⟨r₁, _, hkept, rfl, rfl, rfl⟩

theorem reported_append {pending : List Bytes} {r : Runner δ} {trace : Trace δ} (h : Reported [] r)
    (htrace : trace.reported.toList = pending) : Reported pending {r with traces := r.traces ++ [trace]} := by
  show r.run.results.map TestResult.method ++ pending = (r.traces ++ [trace]).filterMap Trace.reported
  have hbefore : r.run.results.map TestResult.method = r.traces.filterMap Trace.reported := by
    simpa [Reported] using h
  rw [List.filterMap_append, hbefore, ← htrace]
  cases htr : trace.reported <;> simp [htr]

theorem reported_result {result : TestResult} {r : Runner δ} (h : Reported [result.method] r) :
    Reported [] (exec (appendResult result) r).2 := by
  show (r.run.results ++ [result]).map TestResult.method ++ [] = r.traces.filterMap Trace.reported
  rw [List.append_nil, List.map_append]
  exact h

/-- A part with a result, which is appended. -/
theorem reports_append {β : Type} {p : Run δ TestResult} {f : Unit → Run δ β} {pending : β → List Bytes}
    (hp : Reports p fun result => [result.method]) (hf : Reports (f ()) pending) :
    Reports (p >>= fun result => appendResult result >>= f) pending := by
  intro r b r'' hrun hr
  obtain ⟨result, r₁, hfirst, hrun⟩ := of_exec_bind hrun
  obtain ⟨_, r₂, happend, hrun⟩ := of_exec_bind hrun
  refine hf r₂ b r'' hrun ?_
  have hnext := reported_result (hp r result r₁ hfirst hr)
  rwa [happend] at hnext

theorem reports_method (codeunit : Bytes) (method : TestMethod δ) (isolation : TestIsolation) :
    Reports (runSelectedMethod refused codeunit method isolation) fun result => [result.method] := by
  intro r result r' hrun hr
  have hkeeps : Keeps (Reported (δ := δ) []) (if isolation = .function then
      isolated (runOne refused codeunit method false)
      else runOne refused codeunit method (isolation = .disabled && method.model ≠ some .none)) :=
    .ite (keeps_isolated (silent_reported _) (keeps_runOne (silent_reported _) _ _ _))
      (keeps_runOne (silent_reported _) _ _ _)
  have hname : result.method = method.name := by
    have hanswers : Answers (fun result => result.method = method.name) (if isolation = .function then
        isolated (runOne refused codeunit method false)
        else runOne refused codeunit method (isolation = .disabled && method.model ≠ some .none) :
        Run δ TestResult) :=
      .ite (answers_isolated (answers_runOne _ _ _)) (answers_runOne _ _ _)
    exact answers_traced hanswers r result r' hrun
  obtain ⟨r₁, trace, hbefore, hpart, -, rfl⟩ := reported_traced hkeeps hrun hr
  refine reported_append hbefore ?_
  simp [Trace.reported, hpart, hname]

theorem reports_methods (codeunit : Bytes) (isolation : TestIsolation) (only : Option Bytes)
    (methods : List (TestMethod δ)) :
    Reports (runMethods refused codeunit isolation only methods) fun _ => [] := by
  induction methods with
  | nil => exact .pure ()
  | cons method rest ih =>
    unfold runMethods
    split
    · exact reports_append (reports_method codeunit method isolation) ih
    · exact ih

theorem reports_refuse (codeunit refusal : Bytes) (methods : List (TestMethod δ)) :
    Reports (refuseMethods codeunit refusal methods) fun _ => [] := by
  induction methods with
  | nil => exact .pure ()
  | cons method rest ih =>
    refine .bind (fun r _ r' hrun hr => ?_) fun _ => ih
    have happend : exec (appendResult ⟨codeunit, method.name, false, refusal⟩)
        {r with course := .start r.session} =
        (.ok (), (exec (appendResult ⟨codeunit, method.name, false, refusal⟩)
            {r with course := .start r.session}).2) :=
      rfl
    rw [exec_traced _ _ _ _ happend] at hrun
    cases hrun
    show (r.run.results ++ [_]).map TestResult.method ++ [] = (r.traces ++ [_]).filterMap Trace.reported
    have hbefore : r.run.results.map TestResult.method = r.traces.filterMap Trace.reported := by
      simpa [Reported] using hr
    simp [hbefore, Trace.reported]

/-- An `OnRun` that failed is still to be reported. -/
theorem reports_onRun (catalogue : TestCatalogue δ) :
    Reports (runOnRun refused catalogue) fun failed => failed.toList.map TestResult.method := by
  intro r failed r' hrun hr
  unfold runOnRun at hrun
  cases honRun : catalogue.onRun with
  | none =>
    rw [honRun] at hrun
    cases hrun
    exact hr
  | some code =>
    rw [honRun] at hrun
    dsimp only at hrun
    rw [exec_bind, exec_attempt] at hrun
    rcases hcall : exec (traced .onRun (fun _ => true) (call false code)) r with ⟨outcome, r₁⟩
    obtain ⟨r₂, trace, hbefore, hpart, hpassed, rfl⟩ :=
      reported_traced (keeps_call (silent_reported _) false code) hcall hr
    rw [hcall] at hrun
    cases outcome with
    | ok _ =>
      cases hrun
      exact reported_append hbefore (by simp [Trace.reported, hpart, hpassed, passes])
    | error raised =>
      have hname : trace.reported = some (Bytes.ascii "OnRun") := by
        simp [Trace.reported, hpart, hpassed, passes]
      cases raised with
      | foreign => cases hrun
      | _ =>
        cases hrun
        exact reported_append hbefore (by rw [hname]; rfl)

theorem reports_parts (catalogue : TestCatalogue δ) (isolation : TestIsolation) (only : Option Bytes) :
    Reports (runParts refused catalogue isolation only) fun failed => failed.toList.map TestResult.method := by
  intro r failed r' hrun hr
  unfold runParts at hrun
  obtain ⟨first, r₁, hfirst, hrun⟩ := of_exec_bind hrun
  have hpending := reports_onRun catalogue r first r₁ hfirst hr
  cases first with
  | none =>
    obtain ⟨_, r₂, hmethods, hrun⟩ := of_exec_bind hrun
    cases hrun
    exact reports_methods _ _ _ _ r₁ _ _ hmethods hpending
  | some result =>
    cases hrun
    exact hpending


theorem reports_isolated {pending : α → List Bytes} (hp : Reports p pending) : Reports (isolated p) pending := by
  intro r a r' hrun hr
  have hsilent := fun a => silent_reported (δ := δ) (pending a)
  unfold isolated withFloor at hrun
  obtain ⟨depth, r₁, hopen, hrun⟩ := of_exec_bind hrun
  obtain ⟨previous, r₂, hset, hrun⟩ := of_exec_bind hrun
  obtain ⟨outcome, r₃, hbody, hrun⟩ := of_exec_bind hrun
  obtain ⟨_, r₄, hreset, hrun⟩ := of_exec_bind hrun
  rw [exec_rethrow] at hrun
  cases hrun
  have hr₂ := Returning.of_keeps (keeps_boundaries (silent_reported []) _) r₁ _ r₂
    (Returning.of_keeps (keeps_boundaries (silent_reported []) _) r _ r₁ hr hopen) hset
  rw [exec_attempt] at hbody
  rcases hinner : exec (do
      let a ← unwinding depth p
      boundaries (Transaction.rollback depth)
      return a) r₂ with ⟨result, q⟩
  rw [hinner] at hbody
  cases hbody
  obtain ⟨b, q₁, hunwinding, hinner⟩ := of_exec_bind hinner
  obtain ⟨_, q₂, hrollback, hinner⟩ := of_exec_bind hinner
  cases hinner
  have hreturned : exec p r₂ = (.ok a, q₁) := of_exec_tryCatch (fun e u b v => not_returned_throw e u b v)
      hunwinding
  have hq₁ := hp r₂ _ q₁ hreturned hr₂
  have hq₂ := Returning.of_keeps (keeps_boundaries (hsilent _) _) q₁ _ _ hq₁ hrollback
  exact Returning.of_keeps (keeps_boundaries (hsilent _) _) _ _ r' hq₂ hreset

theorem reports_codeunit (catalogue : TestCatalogue δ) (isolation : TestIsolation) (only : Option Bytes) :
    Reports (traced .codeunit (fun _ => true) (runIsolated refused catalogue isolation only))
      fun failed => failed.toList.map TestResult.method := by
  intro r failed r' hrun hr
  have hinner : Reports (runIsolated refused catalogue isolation only)
      fun failed => failed.toList.map TestResult.method := by
    unfold runIsolated
    split
    · exact reports_isolated (reports_parts catalogue isolation only)
    · exact reports_parts catalogue isolation only
  rcases hbody : exec (runIsolated refused catalogue isolation only) {r with course := .start r.session} with
      ⟨outcome, r₁⟩
  rw [exec_traced _ _ _ r hbody] at hrun
  cases hrun
  have hpending := hinner {r with course := .start r.session} failed r₁ hbody hr
  show r₁.run.results.map TestResult.method ++ _ = (r₁.traces ++ [_]).filterMap Trace.reported
  rw [List.filterMap_append, ← hpending]
  simp [Trace.reported]

theorem reports_run (codeunit : Bytes) (isolation : TestIsolation) (only : Option Bytes)
    (catalogues : List (TestCatalogue δ)) :
    Reports (runRegisteredTests refused codeunit isolation only catalogues) fun _ => [] := by
  induction catalogues with
  | nil => exact .pure ()
  | cons catalogue rest ih =>
    unfold runRegisteredTests
    split
    · cases isolationError catalogue.requiredTestIsolation isolation with
      | some refusal => exact .bind (reports_refuse _ _ _) fun _ => ih
      | none =>
        intro r a r' hrun hr
        obtain ⟨failed, r₁, hcodeunit, hrun⟩ := of_exec_bind hrun
        have hpending := reports_codeunit catalogue isolation only r failed r₁ hcodeunit hr
        cases failed with
        | none => exact ih r₁ a r' hrun hpending
        | some result =>
          obtain ⟨_, r₂, happend, hrun⟩ := of_exec_bind hrun
          have hnext := reported_result hpending
          rw [happend] at hnext
          exact ih r₂ a r' hrun hnext
    · exact ih

/-! ### A run leaves no trace -/

/-- What a part should leave, by the isolation of the run. -/
def Trace.Leaves (isolation : TestIsolation) (t : Trace δ) : Prop :=
  match t.part with
  | .method _ model => (isolation = .function → t.Unchanged) ∧ (model = some .autoRollback → t.Unchanged) ∧
      (isolation = .disabled → t.passed = false → t.Settled)
  | .onRun => isolation = .disabled → t.passed = false → t.Settled
  | .codeunit => isolation = .codeunit → t.Unchanged
  | .refused _ => t.Unchanged

/-- Under Disabled isolation, an `OnRun` that fails has not written since its last `Commit`. -/
def Trace.Quiet (isolation : TestIsolation) (t : Trace δ) : Prop :=
  t.part = .onRun → isolation = .disabled → t.passed = false → t.course.wrote = false

theorem leaves_of_clean {isolation : TestIsolation} {t : Trace δ} (h : t.Clean isolation)
    (hquiet : t.Quiet isolation) :
    t.Leaves isolation := by
  unfold Trace.Clean at h
  unfold Trace.Leaves
  cases hpart : t.part with
  | onRun =>
    rw [hpart] at h
    exact fun hdisabled hfailed => h hdisabled hfailed (hquiet hpart hdisabled hfailed)
  | _ =>
    rw [hpart] at h
    exact h

/-- A runner that begins. -/
def begins (s : Session δ) : Runner δ := {session := s, course := .start s}

/-- Whatever is registered, and however its parts end: under Function isolation a method leaves the data as they
were, and under Codeunit isolation a codeunit; an AutoRollback method changes none; under Disabled a method that
fails leaves what its last own `Commit` found, and so does an `OnRun` that fails, if none writes after its last
`Commit`. A run that returns has one result for each method that ran or was refused and each `OnRun` that
failed, and counts them. -/
theorem run_leaves_no_trace {s : Session δ} (hs : Linked s) (hfloor : s.boundaries.isolationFloor ≤ s.depth)
    (refused codeunit : Bytes) (isolation : TestIsolation) (only : Option Bytes)
    (catalogues : List (TestCatalogue δ)) :
    let ran := exec (runRegisteredTests refused codeunit isolation only catalogues) (begins s)
    let r := ran.2
    ((∀ t ∈ r.traces, t.Quiet isolation) → ∀ t ∈ r.traces, t.Leaves isolation) ∧
      r.run.passed + r.run.failed = r.run.results.length ∧
      (ran.1.isOk = true → r.run.results.map TestResult.method = r.traces.filterMap Trace.reported) := by
  have hheld : Ready (begins s).session := ⟨held_of_linked hs, hfloor⟩
  have hthrough := @holds_run δ refused isolation codeunit only catalogues _ hheld
  have hreports := @reports_run δ refused codeunit isolation only catalogues (begins s)
  rcases hrun : exec (runRegisteredTests refused codeunit isolation only catalogues) (begins s) with ⟨outcome, r⟩
  rw [hrun] at hthrough
  refine ⟨fun hquiet t ht => ?_, (hthrough.counted ⟨rfl, rfl⟩).2, fun hok => ?_⟩
  · rcases hthrough.clean t ht with hold | hclean
    · cases hold
    · exact leaves_of_clean hclean (hquiet t ht)
  · cases outcome with
    | error e => cases hok
    | ok a =>
      have hreported := hreports a r hrun rfl
      simpa [Reported] using hreported

/-- A codeunit of one method that writes, commits and fails. -/
def committing (onRun : Option (Code Nat)) : TestCatalogue Nat where
  name := Bytes.ascii "Committing"
  onRun := onRun
  methods := [{
    name := Bytes.ascii "Fails"
    invoke := fun _ => {
      acts := [.does (.write (· + 1)), .does .commit, .does (.write (· + 1))]
      above := by simp [Act.Above, Transaction.Op.Above, Transaction.Op.movesFloor]
      raised := some (.error (Bytes.ascii "this method fails on purpose")) } }]

/-- An `OnRun` that writes and fails. -/
def failing : Code Nat := fun _ => {
  acts := [.does (.write (· + 1))]
  above := by simp [Act.Above, Transaction.Op.Above, Transaction.Op.movesFloor]
  raised := some (.error (Bytes.ascii "this OnRun fails on purpose")) }

theorem run_leaves_no_trace_committing :
    let r := (exec (runRegisteredTests [] [] .disabled none [committing none]) (begins (Transaction.initial 0))).2
    (∀ t ∈ r.traces, t.Leaves .disabled) ∧ r.run.passed + r.run.failed = r.run.results.length := by
  have hmethods : ∀ t ∈ (exec (runRegisteredTests [] [] .disabled none [committing none])
      (begins (Transaction.initial 0))).2.traces, t.part ≠ .onRun := by
    decide +kernel
  have hthm := run_leaves_no_trace (Transaction.linked_initial 0) (Nat.le_refl _) [] [] .disabled none
      [committing none]
  exact ⟨hthm.1 fun t ht hpart => absurd hpart (hmethods t ht), hthm.2.1⟩

/-- The write of an `OnRun` that failed is made durable by the next codeunit. -/
theorem onRun_committed :
    let r := (exec (runRegisteredTests [] [] .disabled none [committing (some failing), committing none])
      (begins (Transaction.initial 0))).2
    (r.traces.map fun t => (t.part, t.passed, t.course.settled.server.data)).head? = some (.onRun, false, 0) ∧
      r.session.server.committed = 2 := by
  decide +kernel

end Agiru.TestRunner
