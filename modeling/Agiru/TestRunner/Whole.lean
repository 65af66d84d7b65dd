import Agiru.TestRunner.Methods

/-! A whole run, in any order of outcomes.

`Holds` is the rule for a part of a run: it stays above the boundaries it began with, and every part that it
traced is `Clean`. -/
namespace Agiru.TestRunner
open Procedure
open Transaction (Session Linked Nest Frame)

variable {δ : Type} {α β : Type} {refused : Bytes} {isolation : TestIsolation}
variable {r r' : Runner δ} {outcome : Except Raised α}

/-! ### What a part leaves -/

/-- The data are what they were before. -/
def Trace.Unchanged (t : Trace δ) : Prop :=
  t.after.server.data = t.before.server.data ∧ t.after.server.committed = t.before.server.committed

/-- The data are what the part's last own `Commit` found, or what they were before. -/
def Trace.Settled (t : Trace δ) : Prop :=
  t.after.server.data = t.course.settled.server.data ∧ t.after.server.committed = t.course.settled.server.committed

/-- What a part should leave, by the isolation of the run; an `OnRun` only if it does not fail after a write
that it did not commit. -/
def Trace.Clean (isolation : TestIsolation) (t : Trace δ) : Prop :=
  match t.part with
  | .method _ model => (isolation = .function → t.Unchanged) ∧ (model = some .autoRollback → t.Unchanged) ∧
      (isolation = .disabled → t.passed = false → t.Settled)
  | .onRun => isolation = .disabled → t.passed = false → t.course.wrote = false → t.Settled
  | .codeunit => isolation = .codeunit → t.Unchanged
  | .refused _ => t.Unchanged

/-- The counts of a run are those of its results. -/
def TestRun.Counted (run : TestRun) : Prop :=
  run.passed = (run.results.filter TestResult.passed).length ∧ run.passed + run.failed = run.results.length

/-- What any stretch of a run keeps. -/
structure Through (isolation : TestIsolation) (r r' : Runner δ) : Prop where
  stays : Stays r.session r'.session
  clean : ∀ t ∈ r'.traces, t ∈ r.traces ∨ t.Clean isolation
  counted : r.run.Counted → r'.run.Counted

theorem Through.trans {r'' : Runner δ} (h : Through isolation r r') (h' : Through isolation r' r'') :
    Through isolation r r'' where
  stays := h.stays.trans h'.stays
  clean t ht := by
    rcases h'.clean t ht with hold | hclean
    · exact h.clean t hold
    · exact .inr hclean
  counted hc := h'.counted (h.counted hc)

/-- A session that a part of a run can begin with. -/
structure Ready (s : Session δ) : Prop where
  held : Held s
  floor : s.boundaries.isolationFloor ≤ s.depth

theorem Stays.ready {s t : Session δ} (h : Stays s t) (hs : Ready s) : Ready t :=
  ⟨h.held, h.floor ▸ Nat.le_trans hs.floor h.depth⟩

theorem Through.refl (h : Ready r.session) : Through isolation r r :=
  ⟨.refl h.held, fun _ ht => .inl ht, fun hc => hc⟩

def Holds (isolation : TestIsolation) (p : Run δ α) : Prop :=
  ∀ r, Ready r.session → Through isolation r (exec p r).2

namespace Holds
variable {p : Run δ α} {f : α → Run δ β}

theorem pure (a : α) : Holds isolation (pure a : Run δ α) := fun _ h => .refl h

theorem throw (e : Raised) : Holds isolation (throw e : Run δ α) := fun _ h => .refl h

theorem bind (hp : Holds isolation p) (hf : ∀ a, Holds isolation (f a)) : Holds isolation (p >>= f) := by
  intro r hr
  have hfirst := hp r hr
  rw [exec_bind]
  rcases hrun : exec p r with ⟨e | a, r'⟩ <;> rw [hrun] at hfirst
  · exact hfirst
  · exact hfirst.trans (hf a r' (hfirst.stays.ready hr))

theorem attempt (hp : Holds isolation p) : Holds isolation (attempt p) := by
  intro r hr
  rw [exec_attempt]
  exact hp r hr

end Holds

theorem holds_appendResult (result : TestResult) : Holds isolation (appendResult result : Run δ Unit) := by
  intro r hr
  refine ⟨.refl hr.held, fun t ht => .inl ht, fun hc => ?_⟩
  obtain ⟨hpassed, htotal⟩ := hc
  change TestRun.Counted ⟨_, _, _⟩
  cases hresult : result.passed with
  | true | false => refine ⟨?_, ?_⟩ <;> simp [hresult] <;> omega

/-! ### Traced parts -/

theorem exec_traced (part : Part) (passed : α → Bool) (p : Run δ α) (r : Runner δ)
    (h : exec p {r with course := .start r.session} = (outcome, r')) :
    exec (traced part passed p) r = (outcome, {r' with traces := r'.traces ++
      [⟨part, r.session, r'.course, r'.session, passes passed outcome⟩]}) := by
  unfold traced
  simp only [exec_bind, exec_get, exec_modify, exec_attempt, h]
  cases outcome <;> rfl

/-- A traced part that is clean. -/
theorem holds_traced {part : Part} {passed : α → Bool} {p : Run δ α}
    (h : ∀ r : Runner δ, Ready r.session → r.course = .start r.session → ∀ outcome r', exec p r = (outcome, r') →
      Through isolation r r' ∧
        Trace.Clean isolation ⟨part, r.session, r'.course, r'.session, passes passed outcome⟩) :
    Holds isolation (traced part passed p) := by
  intro r hr
  rcases hrun : exec p {r with course := .start r.session} with ⟨outcome, r'⟩
  obtain ⟨hthrough, hclean⟩ := h {r with course := .start r.session} hr rfl outcome r' hrun
  rw [exec_traced part passed p r hrun]
  refine ⟨hthrough.stays, fun t ht => ?_, hthrough.counted⟩
  rcases List.mem_append.mp ht with hinner | hlast
  · exact hthrough.clean t hinner
  · obtain rfl := List.mem_singleton.mp hlast
    exact .inr hclean

theorem holds_refuse (codeunit refusal : Bytes) (methods : List (TestMethod δ)) :
    Holds isolation (refuseMethods codeunit refusal methods) := by
  induction methods with
  | nil => exact .pure _
  | cons method rest ih =>
    refine .bind (holds_traced fun r hr _ outcome r' hrun => ?_) fun _ => ih
    have happend := @holds_appendResult δ isolation ⟨codeunit, method.name, false, refusal⟩ r hr
    rw [hrun] at happend
    cases hrun
    exact ⟨happend, rfl, rfl⟩

/-! ### Isolation -/

/-- The session with the floor on its last boundary. -/
def floored (o : Session δ) (depth : Nat) : Session δ :=
  {o with boundaries := {o.boundaries with isolationFloor := depth}}

theorem ready_floored {s o : Session δ} (hs : Ready s) (ho : Opened s o) : Ready (floored o (s.depth + 1)) := by
  refine ⟨held_issued (held_of_linked ho.linked) rfl (Nat.le_refl _) rfl, ?_⟩
  show s.depth + 1 ≤ o.depth
  rw [ho.depth hs.held]

theorem exec_withFloor (depth : Nat) (p : Run δ α)
    (h : exec p {r with session := floored r.session depth} = (outcome, r')) :
    exec (withFloor depth p) r =
      (outcome, {r' with session := floored r'.session r.session.boundaries.isolationFloor}) := by
  have hset : ∀ (d : Nat) (q : Runner δ), exec (boundaries (Transaction.setIsolationFloor d)) q =
      (.ok q.session.boundaries.isolationFloor, {q with session := floored q.session d}) := fun _ _ => rfl
  unfold withFloor
  simp only [exec_bind, hset, exec_attempt, h]
  exact exec_rethrow _ _

theorem exec_unwinding {depth : Nat} {p : Run δ α} {r'' : Runner δ} {a : Unit}
    (h : exec p r = (outcome, r')) (hback : exec (boundaries (Transaction.rollback depth)) r' = (.ok a, r'')) :
    exec (unwinding depth p) r = (outcome, if outcome.isOk then r' else r'') := by
  unfold unwinding
  rw [exec_tryCatch, h]
  cases outcome with
  | ok a => rfl
  | error e =>
    dsimp only
    rw [exec_bind, exec_attempt, hback]
    rfl

/-- What ran under the floor is undone. -/
theorem isolated_restores {s o w : Session δ} (hs : Ready s) (ho : Opened s o)
    (hw : Stays (floored o (s.depth + 1)) w) :
    ∃ u, exec (Transaction.rollback (s.depth + 1)) w = (.ok (), u) ∧
      Stays s (floored u s.boundaries.isolationFloor) ∧ u.server.data = s.server.data ∧
        u.server.committed = s.server.committed := by
  have hframe : w.nest.frames[s.depth]? = some s.nest.now := by
    refine hw.below s.depth _ (Nat.lt_succ_self _) ?_
    rw [← ho.now]
    exact ho.frame hs.held
  have hstands : s.depth < w.depth := by
    have hlt := (List.getElem?_eq_some_iff.mp hframe).1
    rwa [depth_frames hw.held] at hlt
  obtain ⟨u, hrun, hlinked, hcomes⟩ := rollback_held hw.held hstands
  have hnest : u.nest = {w.nest with now := s.nest.now, frames := w.nest.frames.take s.depth} := by
    rw [hcomes.nest, after, Nest.step_rollback hframe]
  have hcommitted : u.server.committed = s.server.committed := by
    rw [hcomes.committed, hw.floored (Nat.succ_ne_zero _)]
    exact ho.committed
  refine ⟨u, hrun, ⟨held_issued hcomes.held rfl (Nat.le_refl _) rfl, rfl, ?_, ?_, fun _ => hcommitted⟩, ?_, hcommitted⟩
  · show s.depth ≤ u.depth
    rw [← depth_frames hcomes.held, hnest, List.length_take, depth_frames hw.held]
    exact Nat.le_min.mpr ⟨Nat.le_refl _, Nat.le_of_lt hstands⟩
  · intro i frame hi hold
    have hlt : i < s.depth := Nat.lt_of_lt_of_le hi hs.floor
    show u.nest.frames[i]? = some frame
    rw [hnest, List.getElem?_take, if_pos hlt]
    exact hw.below i frame (Nat.lt_succ_of_lt hlt) (ho.below hold)
  · exact congrArg (fun n => n.now.data) hnest

/-- A part that is isolated leaves the data as they were. -/
theorem through_isolated {p : Run δ α} (hr : Ready r.session)
    (hp : ∀ o, Opened r.session o → Through isolation {r with session := floored o (r.session.depth + 1)}
      (exec p {r with session := floored o (r.session.depth + 1)}).2) (hrun : exec (isolated p) r = (outcome, r')) :
    Through isolation r r' ∧ r'.session.server.data = r.session.server.data ∧
      r'.session.server.committed = r.session.server.committed := by
  unfold isolated at hrun
  rw [exec_bind] at hrun
  rcases open_cases hr.held hr.floor with ⟨o, hopen, ho⟩ | ⟨e, t, hopen, hcomes⟩ <;>
    rw [exec_boundaries hopen] at hrun
  · have hinner := hp o ho
    rcases hbody : exec p {r with session := floored o (r.session.depth + 1)} with ⟨result, q⟩
    rw [hbody] at hinner
    obtain ⟨u, hback, hstays, hdata, hcommitted⟩ := isolated_restores hr ho hinner.stays
    have hrollback := exec_boundaries (r := q) hback
    have hunwinding := exec_unwinding hbody hrollback
    have hends : exec (do
        let a ← unwinding (r.session.depth + 1) p
        boundaries (Transaction.rollback (r.session.depth + 1))
        return a) {r with session := floored o (r.session.depth + 1)} = (result, {q with session := u}) := by
      cases result with
      | error e =>
        rw [exec_bind, hunwinding]
        rfl
      | ok a =>
        have hgoes : exec (unwinding (r.session.depth + 1) p) {r with session := floored o (r.session.depth + 1)} =
            (.ok a, q) := hunwinding
        rw [exec_bind_ok hgoes, exec_bind_ok (a := ()) hrollback]
        rfl
    have hfloored := exec_withFloor (r.session.depth + 1) _ (r := {r with session := o}) hends
    cases hfloored.symm.trans hrun
    refine ⟨⟨?_, hinner.clean, hinner.counted⟩, hdata, hcommitted⟩
    show Stays r.session (floored u o.boundaries.isolationFloor)
    rw [ho.floor]
    exact hstays
  · cases hrun
    have hdata : t.nest.now = r.session.nest.now := congrArg Nest.now hcomes.nest
    exact ⟨⟨stays_nothing hr.held hcomes, fun _ ht => .inl ht, fun hc => hc⟩, data_of_now hdata, hcomes.committed⟩

/-! ### Methods, codeunits, the run -/

theorem through_did {auto passed : Bool} (h : Did auto passed r r') : Through isolation r r' where
  stays := h.stays
  clean _ ht := .inl (h.traces ▸ ht)
  counted hc := h.run.symm ▸ hc

theorem holds_method (codeunit : Bytes) (method : TestMethod δ) :
    Holds isolation (runSelectedMethod refused codeunit method isolation) := by
  unfold runSelectedMethod
  refine holds_traced fun r hr hcourse outcome r' hrun => ?_
  split at hrun
  · next hfunction =>
    have hinner : ∀ o, Opened r.session o → Through isolation {r with session := floored o (r.session.depth + 1)}
        (exec (runOne refused codeunit method false) {r with session := floored o (r.session.depth + 1)}).2 := by
      intro o ho
      have hready := ready_floored hr ho
      have hdata : r.session.server.data = o.server.data := (data_of_now ho.now).symm
      have hsettled : r.course.settled.server.data = o.server.data ∧
          r.course.settled.server.committed = o.server.committed := by
        rw [hcourse]
        exact ⟨hdata, ho.committed.symm⟩
      obtain ⟨outcome', r'', hone, hdid, -⟩ := runOne_did refused
        (r := {r with session := floored o (r.session.depth + 1)}) hready.held hready.floor hsettled codeunit
            method false
      rw [hone]
      exact through_did hdid
    obtain ⟨hthrough, hdata, hcommitted⟩ := through_isolated hr hinner hrun
    refine ⟨hthrough, fun _ => ⟨hdata, hcommitted⟩, fun _ => ⟨hdata, hcommitted⟩, fun hdisabled => ?_⟩
    cases hfunction.symm.trans hdisabled
  · next hother =>
    have hsettled : r.course.settled.server.data = r.session.server.data ∧
        r.course.settled.server.committed = r.session.server.committed := by
      rw [hcourse]
      exact ⟨rfl, rfl⟩
    obtain ⟨outcome', r'', hone, hdid, -⟩ := runOne_did refused hr.held hr.floor hsettled codeunit
        method
      (isolation = .disabled && method.model ≠ some .none)
    cases hone.symm.trans hrun
    refine ⟨through_did hdid, fun hfunction => absurd hfunction hother, fun hauto => ?_, fun _ hfailed => ?_⟩
    · exact hdid.discarded (by simp [hauto])
    · exact hdid.undone hfailed

theorem holds_methods (codeunit : Bytes) (only : Option Bytes) (methods : List (TestMethod δ)) :
    Holds isolation (runMethods refused codeunit isolation only methods) := by
  induction methods with
  | nil => exact .pure _
  | cons method rest ih =>
    unfold runMethods
    split
    · exact .bind (holds_method codeunit method) fun result => .bind (holds_appendResult result) fun _ => ih
    · exact ih

theorem holds_onRun (code : Code δ) :
    Holds isolation (traced .onRun (fun _ => true) (call false code)) := by
  refine holds_traced fun r hr _ outcome r' hrun => ?_
  have hc : Upholds false r.session.depth r.session (courseOf false code r.session) :=
    upholds_run (upholds_start hr.held (Nat.le_refl _)) (code r.session).above
  rw [exec_call] at hrun
  cases hrun
  refine ⟨⟨⟨hc.held, hc.floor, hc.stands, fun i frame hi hframe => ?_, fun hfloor => ?_⟩, fun t ht => .inl ht,
    fun hcounted => hcounted⟩, fun _ _ hwrote => ?_⟩
  · exact hc.below i frame (Nat.lt_of_lt_of_le hi hr.floor) hi hframe
  · exact hc.durable.trans (hc.floored hfloor)
  · exact ⟨(hc.quiet hr.floor rfl hwrote).1, hc.durable⟩

theorem holds_parts (isolation : TestIsolation) (catalogue : TestCatalogue δ) (only : Option Bytes) :
    Holds isolation (runParts refused catalogue isolation only) := by
  have hfirst : Holds isolation (runOnRun refused catalogue) := by
    unfold runOnRun
    cases catalogue.onRun with
    | none => exact .pure _
    | some code =>
      refine .bind (holds_onRun code).attempt fun outcome => ?_
      cases outcome with
      | ok _ => exact .pure _
      | error raised =>
        cases raised with
        | foreign => exact .throw _
        | _ => exact .pure _
  unfold runParts
  refine .bind hfirst fun failed => ?_
  split
  · exact .bind (holds_methods catalogue.name only catalogue.methods) fun _ => .pure _
  · exact .pure _

theorem holds_codeunit (catalogue : TestCatalogue δ) (only : Option Bytes) :
    Holds isolation (traced .codeunit (fun _ => true) (runIsolated refused catalogue isolation only)) := by
  refine holds_traced fun r hr _ outcome r' hrun => ?_
  unfold runIsolated at hrun
  split at hrun
  · obtain ⟨hthrough, hdata, hcommitted⟩ := through_isolated hr
      (fun o ho => holds_parts isolation catalogue only _ (ready_floored hr ho)) hrun
    exact ⟨hthrough, fun _ => ⟨hdata, hcommitted⟩⟩
  · next hother =>
    have hparts := @holds_parts δ refused isolation catalogue only r hr
    rw [hrun] at hparts
    exact ⟨hparts, fun hcodeunit => absurd hcodeunit hother⟩

theorem holds_run (codeunit : Bytes) (only : Option Bytes) (catalogues : List (TestCatalogue δ)) :
    Holds isolation (runRegisteredTests refused codeunit isolation only catalogues) := by
  induction catalogues with
  | nil => exact .pure _
  | cons catalogue rest ih =>
    unfold runRegisteredTests
    split
    · cases isolationError catalogue.requiredTestIsolation isolation with
      | some refusal => exact .bind (holds_refuse _ _ _) fun _ => ih
      | none =>
        refine .bind (p := traced .codeunit _ _) (holds_codeunit catalogue only) fun failed => ?_
        cases failed with
        | none => exact ih
        | some result => exact .bind (holds_appendResult result) fun _ => ih
    · exact ih

end Agiru.TestRunner
