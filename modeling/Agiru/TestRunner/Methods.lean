import Agiru.TestRunner.Runner

/-! One test method, whichever way it ends.

`Stays` is what every part of a run leaves of the session around it; `Did` adds what a method leaves of its own
data: none where it is discarded, and what its last `Commit` found where it fails. -/
namespace Agiru.TestRunner
open Procedure
open Transaction (Session Linked Nest Frame)

variable {δ : Type} {auto : Bool}
variable {c : Course δ}
variable {r : Runner δ} {t : Session δ}

/-! ### The runner's statements -/

theorem exec_boundaries {α : Type} {p : Transaction.Run δ α} {result : Except Transaction.Failure α}
    (h : exec p r.session = (result, t)) :
    exec (boundaries p) r = (result.mapError .boundaries, {r with session := t}) := by
  unfold boundaries
  rw [exec_bind, exec_get]
  dsimp only
  rw [h]
  cases result <;> rfl

@[simp] theorem exec_attempt {α : Type} (p : Run δ α) (r : Runner δ) :
    exec (attempt p) r = (.ok (exec p r).1, (exec p r).2) := by
  unfold attempt
  rw [exec_tryCatch, exec_map]
  rcases exec p r with ⟨e | a, t⟩ <;> rfl

@[simp] theorem exec_rethrow {α : Type} (outcome : Except Raised α) (r : Runner δ) :
    exec (rethrow outcome) r = (outcome, r) := by
  cases outcome <;> rfl

/-- The course of code that is called. -/
def courseOf (auto : Bool) (code : Code δ) (s : Session δ) : Course δ := (Course.start s).run auto (code s).acts

theorem exec_call (code : Code δ) (r : Runner δ) :
    exec (call auto code) r =
      (match (code r.session).raised with
        | some raised => .error raised
        | none => .ok (code r.session).missed,
        {r with session := (courseOf auto code r.session).now, course := courseOf auto code r.session}) := by
  unfold call
  rw [exec_bind, exec_get]
  dsimp only
  rw [exec_bind, exec_set]
  dsimp only
  cases (code r.session).raised <;> rfl

/-! ### Boundaries around a part -/

/-- What a part of a run leaves of the session. -/
structure Stays (s t : Session δ) : Prop where
  held : Held t
  floor : t.boundaries.isolationFloor = s.boundaries.isolationFloor
  depth : s.depth ≤ t.depth
  below : ∀ i frame, i < s.boundaries.isolationFloor → s.nest.frames[i]? = some frame →
    t.nest.frames[i]? = some frame
  floored : s.boundaries.isolationFloor ≠ 0 → t.server.committed = s.server.committed

theorem Stays.trans {s u : Session δ} (h : Stays s t) (h' : Stays t u) : Stays s u where
  held := h'.held
  floor := h'.floor.trans h.floor
  depth := h.depth.trans h'.depth
  below i frame hi hframe := h'.below i frame (h.floor.symm ▸ hi) (h.below i frame hi hframe)
  floored hfloor := (h'.floored (h.floor.symm ▸ hfloor)).trans (h.floored hfloor)

theorem Stays.refl {s : Session δ} (h : Held s) : Stays s s :=
  ⟨h, rfl, Nat.le_refl _, fun _ _ _ hi => hi, fun _ => rfl⟩

theorem depth_frames {s : Session δ} (h : Held s) : s.nest.frames.length = s.depth := h.depth_nest

theorem stays_nothing {s : Session δ} (hs : Held s) (h : Comes none s t) : Stays s t where
  held := h.held
  floor := congrArg Nest.floor h.nest
  depth := by
    have hsame : t.nest.depth = s.nest.depth := congrArg Nest.depth h.nest
    rw [← h.held.depth_nest, hsame, hs.depth_nest]
  below _ _ _ hframe := by
    rw [h.nest]
    exact hframe
  floored _ := h.committed

/-- A session whose last boundary was just opened. -/
structure Opened (s t : Session δ) : Prop where
  linked : Linked t
  nest : t.nest = {s.nest with frames := s.nest.frames ++ [s.nest.now]}
  committed : t.server.committed = s.server.committed

theorem open_cases {s : Session δ} (h : Held s) (hfloor : s.boundaries.isolationFloor ≤ s.depth) :
    (∃ t, exec Transaction.openBoundary s = (.ok (s.depth + 1), t) ∧ Opened s t) ∨
      ∃ e t, exec Transaction.openBoundary s = (.error e, t) ∧ Comes none s t := by
  cases hfailed : s.server.failed with
  | true => exact .inr (opens_failed h hfailed)
  | false =>
    have hs := h.sound hfailed
    have hstep : Transaction.step .opens s = s.opened := by
      simp [Transaction.step, Transaction.perform, Transaction.exec_open hs hfloor]
    have hc := Transaction.carried hs .opens
    rw [hstep] at hc
    refine .inl ⟨s.opened, Transaction.exec_open hs hfloor, hc.linked, ?_, rfl⟩
    rw [hc.nest, Nest.step, if_pos]
    rwa [Transaction.nest_floor, h.depth_nest]

namespace Opened
variable {s o : Session δ} (ho : Opened s o) (hs : Held s) (hfloor : s.boundaries.isolationFloor ≤ s.depth)
include ho

theorem floor : o.boundaries.isolationFloor = s.boundaries.isolationFloor := congrArg Nest.floor ho.nest

theorem now : o.nest.now = s.nest.now := by rw [ho.nest]

theorem below {i : Nat} {frame : Frame δ} (hframe : s.nest.frames[i]? = some frame) :
    o.nest.frames[i]? = some frame := by
  rw [ho.nest, List.getElem?_append_left (List.getElem?_eq_some_iff.mp hframe).1, hframe]

/-- What ran in the boundary, once the boundary is gone. -/
theorem stays (hfloor : s.boundaries.isolationFloor ≤ s.depth)
    (hc : Upholds auto (s.depth + 1) o c) {u : Session δ} (hu : Held u)
    (hframes : u.nest.frames = c.now.nest.frames.take s.depth)
    (hf : u.boundaries.isolationFloor = c.now.boundaries.isolationFloor)
    (hcommitted : u.server.committed = c.now.server.committed) : Stays s u where
  held := hu
  floor := by rw [hf, hc.floor, ho.floor]
  depth := by
    rw [← depth_frames hu, hframes, List.length_take, depth_frames hc.held]
    exact Nat.le_min.mpr ⟨Nat.le_refl _, Nat.le_of_lt hc.stands⟩
  below i frame hi hframe := by
    have hlt : i < s.depth := Nat.lt_of_lt_of_le hi hfloor
    rw [hframes, List.getElem?_take, if_pos hlt]
    exact hc.below i frame (Nat.lt_succ_of_lt hlt) (ho.floor ▸ hi) (ho.below hframe)
  floored hzero := by
    rw [hcommitted, hc.durable, hc.floored (ho.floor ▸ hzero), ho.committed]

/-- A release keeps what the block holds. -/
theorem release (hfloor : s.boundaries.isolationFloor ≤ s.depth)
    (hc : Upholds auto (s.depth + 1) o c) (hfailed : c.now.server.failed = false) :
    ∃ u, exec (Transaction.release (s.depth + 1)) c.now = (.ok (), u) ∧ Stays s u := by
  have hlinked := hc.held.sound hfailed
  have hi : s.depth < c.now.boundaries.names.length := hc.stands
  have hrun := Transaction.exec_release hlinked hi (hlinked.length ▸ hi)
  have hstep : Transaction.step (.release (s.depth + 1)) c.now =
      c.now.released s.depth c.now.boundaries.names[s.depth] := by
    simp [Transaction.step, Transaction.perform, hrun]
  have hcarried := Transaction.carried hlinked (.release (s.depth + 1))
  rw [hstep] at hcarried
  have hnest := hcarried.nest
  rw [Nest.step, if_neg] at hnest
  · exact ⟨_, hrun, ho.stays hfloor hc (held_of_linked hcarried.linked) (congrArg Nest.frames hnest)
      (congrArg Nest.floor hnest) rfl⟩
  · rw [hlinked.depth_nest]
    have hstands : s.depth + 1 ≤ c.now.depth := hc.stands
    omega

include hs

theorem depth : o.depth = s.depth + 1 := by
  rw [← ho.linked.depth_nest, ho.nest, Nest.depth, List.length_append, depth_frames hs]
  rfl

theorem frame : o.nest.frames[s.depth]? = some o.nest.now := by
  rw [ho.nest, ← depth_frames hs, List.getElem?_append_right (Nat.le_refl _), Nat.sub_self]
  rfl

include hfloor

/-- A rollback goes back to the code's last `Commit`. -/
theorem rollback (hc : Upholds auto (s.depth + 1) o c) :
    ∃ u, exec (Transaction.rollback (s.depth + 1)) c.now = (.ok (), u) ∧ Linked u ∧ Stays s u ∧
      u.nest.now = c.settled.nest.now ∧ u.server.committed = c.settled.server.committed := by
  obtain ⟨u, hrun, hlinked, hcomes⟩ := rollback_held hc.held hc.stands
  have hframe := hc.scope s.depth rfl (ho.floor ▸ hfloor) (ho.frame hs)
  have hnest : u.nest = {c.now.nest with now := c.settled.nest.now, frames := c.now.nest.frames.take s.depth} := by
    rw [hcomes.nest, after, Nest.step_rollback hframe]
  refine ⟨u, hrun, hlinked, ho.stays hfloor hc hcomes.held (congrArg Nest.frames hnest)
    (congrArg Nest.floor hnest) hcomes.committed, by rw [hnest], hcomes.committed.trans hc.durable⟩

/-- A block that has failed is not kept: it goes back, and the release raises. -/
theorem release_failed (hc : Upholds auto (s.depth + 1) o c) (hfailed : c.now.server.failed = true) :
    ∃ u, exec (Transaction.release (s.depth + 1)) c.now = (.error .notKept, u) ∧ Stays s u ∧
      u.nest.now = c.settled.nest.now ∧ u.server.committed = c.settled.server.committed := by
  obtain ⟨u, hrun, -, hcomes⟩ := release_held hc.held hfailed hc.stands
  have hframe := hc.scope s.depth rfl (ho.floor ▸ hfloor) (ho.frame hs)
  have hnest : u.nest = {c.now.nest with now := c.settled.nest.now, frames := c.now.nest.frames.take s.depth} := by
    rw [hcomes.nest, after, Nest.step_rollback hframe]
  exact ⟨u, hrun, ho.stays hfloor hc hcomes.held (congrArg Nest.frames hnest) (congrArg Nest.floor hnest)
    hcomes.committed, by rw [hnest], hcomes.committed.trans hc.durable⟩

end Opened

/-! ### A method -/

/-- Whether a part of a run was passed. -/
def passes {α : Type} (passed : α → Bool) : Except Raised α → Bool
  | .ok a => passed a
  | .error _ => false

/-- What one method leaves. -/
structure Did (auto passed : Bool) (r r' : Runner δ) : Prop where
  run : r'.run = r.run
  traces : r'.traces = r.traces
  stays : Stays r.session r'.session
  undone : passed = false → r'.session.server.data = r'.course.settled.server.data ∧
    r'.session.server.committed = r'.course.settled.server.committed
  discarded : auto = true → r'.session.server.data = r.session.server.data ∧
    r'.session.server.committed = r.session.server.committed

variable {refused : Bytes}

theorem data_of_now {s : Session δ} (h : t.nest.now = s.nest.now) : t.server.data = s.server.data :=
  congrArg Frame.data h

/-- A method's scope, rolled back. -/
theorem did_rollback {o : Session δ} (h : Held r.session)
    (hfloor : r.session.boundaries.isolationFloor ≤ r.session.depth) (ho : Opened r.session o)
    (hc : Upholds auto (r.session.depth + 1) o c) (passed : Bool) :
    ∃ r', exec (boundaries (Transaction.rollback (r.session.depth + 1))) {r with session := c.now, course := c} =
      (.ok (), r') ∧ Did auto passed r r' := by
  obtain ⟨u, hrun, -, hstays, hnow, hcommitted⟩ := ho.rollback h hfloor hc
  refine ⟨{r with session := u, course := c}, exec_boundaries (r := {r with session := c.now, course := c})
      hrun, rfl, rfl, hstays, fun _ => ⟨data_of_now hnow, hcommitted⟩, fun hauto => ?_⟩
  rw [hc.refuses hauto] at hnow hcommitted
  exact ⟨data_of_now (hnow.trans ho.now), hcommitted.trans ho.committed⟩

/-- A commit goes through, or leaves the session as it is. -/
theorem commit_cases {depth : Nat} {s : Session δ} (hc : Upholds false depth s c) :
    (∃ t, exec Transaction.commit c.now = (.ok (), t) ∧ Linked t ∧ Upholds false depth s ⟨t, t, false⟩) ∨
      ∃ e, exec Transaction.commit c.now = (.error e, c.now) := by
  cases hfailed : c.now.server.failed with
  | true => exact .inr (commit_failed hfailed)
  | false =>
    have hlinked := hc.held.sound hfailed
    by_cases hgo : c.now.boundaries.isolationFloor ≤ c.now.depth ∧ c.now.boundaries.inconsistent = []
    · have hrun := Transaction.exec_commit hlinked hgo.1 hgo.2
      have hcommits : (Act.does .commit).commits false c.now = true := by
        simp [Act.commits, hrun, Except.isOk, Except.toBool]
      have hstep : (Act.does .commit).run false c.now = c.now.committed := by
        simp [Act.run, Transaction.step, Transaction.perform, hrun]
      have hafter := upholds_commit hc hcommits
      rw [hstep] at hafter
      refine .inl ⟨c.now.committed, hrun, ?_, hafter⟩
      rw [← hstep]
      exact (Transaction.carried hlinked .commit).linked
    · exact .inr (Transaction.exec_commit_refused hlinked fun hle hnone => hgo ⟨hle, hnone⟩)

/-- Code that returned. -/
theorem returned_did {o : Session δ} (h : Held r.session)
    (hfloor : r.session.boundaries.isolationFloor ≤ r.session.depth) (ho : Opened r.session o)
    (hc : Upholds auto (r.session.depth + 1) o c) (codeunit name : Bytes) (commitOnSuccess : Bool)
    (missed : List Bytes) :
    ∃ outcome r', exec (returned refused (fun passed error => ⟨codeunit, name, passed, error⟩) auto commitOnSuccess
        (r.session.depth + 1) missed) {r with session := c.now, course := c} = (outcome, r') ∧
      Did auto (passes TestResult.passed outcome) r r' ∧
        ∀ result, outcome = .ok result → result.method = name := by
  have hback := did_rollback h hfloor ho hc
  unfold returned
  by_cases hmissed : missed = []
  · subst hmissed
    cases auto with
    | true =>
      obtain ⟨r', hrun, hdid⟩ := hback true
      refine ⟨.ok ⟨codeunit, name, true, []⟩, r', ?_, hdid, fun _ heq => by cases heq; rfl⟩
      simp [hrun]
    | false =>
      have hkeeps : ∀ {c' : Course δ}, Upholds false (r.session.depth + 1) o c' → c'.now.server.failed = false →
          ∃ r', exec (boundaries (Transaction.release (r.session.depth + 1)))
            {r with session := c'.now, course := c} = (.ok (), r') ∧ Did false true r r' := by
        intro c' hc' hsound
        obtain ⟨u, hrun, hstays⟩ := ho.release hfloor hc' hsound
        refine ⟨{r with session := u, course := c},
          exec_boundaries (r := {r with session := c'.now, course := c}) hrun, rfl, rfl, hstays, ?_, ?_⟩
        · intro hpassed
          cases hpassed
        · intro hauto
          cases hauto
      cases commitOnSuccess with
      | false =>
        cases hfailed : c.now.server.failed with
        | false =>
          obtain ⟨r', hrun, hdid⟩ := hkeeps hc hfailed
          refine ⟨.ok ⟨codeunit, name, true, []⟩, r', ?_, hdid, fun _ heq => by cases heq; rfl⟩
          simp [exec_bind, hrun]
        | true =>
          obtain ⟨u, hrun, hstays, hnow, hcommitted⟩ := ho.release_failed h hfloor hc hfailed
          refine ⟨.error (.boundaries .notKept), {r with session := u, course := c}, ?_,
            ⟨rfl, rfl, hstays, fun _ => ⟨data_of_now hnow, hcommitted⟩, ?_⟩, fun _ heq => by cases heq⟩
          · simp [exec_bind, exec_boundaries (r := {r with session := c.now, course := c}) hrun, Except.mapError]
          · intro hauto
            cases hauto
      | true =>
        rcases commit_cases hc with ⟨t, hcommit, ht, hafter⟩ | ⟨e, hcommit⟩
        · obtain ⟨r', hrun, hdid⟩ := hkeeps hafter ht.sound
          refine ⟨.ok ⟨codeunit, name, true, []⟩, r', ?_, hdid, fun _ heq => by cases heq; rfl⟩
          have hcommitted := exec_boundaries (r := {r with session := c.now, course := c}) hcommit
          simp [exec_bind, hcommitted, Except.mapError, hrun]
        · obtain ⟨r', hrun, hdid⟩ := hback false
          refine ⟨.ok ⟨codeunit, name, false, (Raised.boundaries e).text refused⟩, r', ?_, hdid,
            fun _ heq => by cases heq; rfl⟩
          have hcommitted := exec_boundaries (r := {r with session := c.now, course := c}) hcommit
          simp [exec_bind, hcommitted, Except.mapError, hrun]
  · obtain ⟨r', hrun, hdid⟩ := hback false
    refine ⟨.ok ⟨codeunit, name, false, missedText missed⟩, r', ?_, hdid, fun _ heq => by cases heq; rfl⟩
    simp [hmissed, hrun]

theorem runOne_did (refused : Bytes) (h : Held r.session)
    (hfloor : r.session.boundaries.isolationFloor ≤ r.session.depth)
    (hcourse : r.course.settled.server.data = r.session.server.data ∧
      r.course.settled.server.committed = r.session.server.committed)
    (codeunit : Bytes) (method : TestMethod δ) (commitOnSuccess : Bool) :
    ∃ outcome r', exec (runOne refused codeunit method commitOnSuccess) r = (outcome, r') ∧
      Did (method.model = some .autoRollback) (passes TestResult.passed outcome) r r' ∧
        ∀ result, outcome = .ok result → result.method = method.name := by
  unfold runOne
  dsimp only
  generalize hauto : decide (method.model = some .autoRollback) = auto
  rw [exec_bind]
  rcases open_cases h hfloor with ⟨o, hopen, ho⟩ | ⟨e, t, hopen, hcomes⟩ <;> rw [exec_boundaries hopen]
  · have hdepth := ho.depth h
    have hc : Upholds auto (r.session.depth + 1) o (courseOf auto method.invoke o) := by
      refine upholds_run (upholds_start (held_of_linked ho.linked) (Nat.le_of_eq hdepth.symm)) ?_
      rw [← hdepth]
      exact (method.invoke o).above
    have hback := did_rollback h hfloor ho hc
    have hcall : exec (call auto method.invoke) {r with session := o} = _ := exec_call method.invoke {r with session := o}
    dsimp only at hcall
    dsimp only [Except.mapError]
    rw [exec_bind, exec_attempt, hcall]
    cases hraised : (method.invoke o).raised with
    | none => exact returned_did h hfloor ho hc codeunit method.name commitOnSuccess _
    | some raised =>
      obtain ⟨r', hrun, hdid⟩ := hback false
      cases raised with
      | foreign =>
        refine ⟨.error .foreign, r', ?_, hdid, fun _ heq => by cases heq⟩
        simp [exec_bind, unwinding, exec_tryCatch, hrun]
      | boundaries failure =>
        refine ⟨.ok ⟨codeunit, method.name, false, Raised.diagnostic refused (.boundaries failure)⟩, r', ?_, hdid,
          fun _ heq => by cases heq; rfl⟩
        simp [hrun]
      | error text =>
        refine ⟨.ok ⟨codeunit, method.name, false, Raised.diagnostic refused (.error text)⟩, r', ?_, hdid,
          fun _ heq => by cases heq; rfl⟩
        simp [hrun]
      | exception text =>
        refine ⟨.ok ⟨codeunit, method.name, false, Raised.diagnostic refused (.exception text)⟩, r', ?_, hdid,
          fun _ heq => by cases heq; rfl⟩
        simp [hrun]
  · have hdata : t.nest.now = r.session.nest.now := congrArg Nest.now hcomes.nest
    refine ⟨_, _, rfl, ⟨rfl, rfl, stays_nothing h hcomes, fun _ => ?_, fun _ => ?_⟩, fun _ heq => by cases heq⟩
    · show t.server.data = r.course.settled.server.data ∧ t.server.committed = r.course.settled.server.committed
      rw [hcourse.1, hcourse.2]
      exact ⟨data_of_now hdata, hcomes.committed⟩
    · exact ⟨data_of_now hdata, hcomes.committed⟩

end Agiru.TestRunner
