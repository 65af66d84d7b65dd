import Agiru.TestRunner.Body

/-! A test's code between its commits.

`Upholds` relates a session to the one its code started from, at the depth the code runs at: the boundaries under
the floor hold what they held, a boundary just opened for the code holds what its last `Commit` found, and code
that has not written since then has changed no data. -/
namespace Agiru.TestRunner
open Procedure
open Transaction

variable {δ : Type} {auto : Bool}
variable {act : Act δ} {s : Session δ}
variable {c : Course δ}

theorem effect_above {failed : Bool} {depth : Nat} {op : Op δ} (h : act.Above depth)
    (he : act.effect auto failed = some op) : op.Above depth ∧ op.movesFloor = false := by
  cases act with
  | fails => cases he
  | does o =>
    obtain ⟨habove, hfixed⟩ := h
    cases o with
    | opens =>
      cases failed <;> cases he
      exact ⟨trivial, rfl⟩
    | commit =>
      cases auto <;> cases failed <;> cases he
      exact ⟨trivial, rfl⟩
    | release d =>
      cases failed <;> cases he
      · exact ⟨habove, rfl⟩
      · exact ⟨habove, rfl⟩
    | write f =>
      cases he
      exact ⟨trivial, rfl⟩
    | _ =>
      cases he
      exact ⟨habove, hfixed⟩

/-- A commit that returns is the nest's. -/
theorem of_commits (h : Held s) (hc : act.commits auto s = true) :
    Linked s ∧ s.nest.commits = true ∧ act.run auto s = step .commit s ∧ auto = false := by
  obtain ⟨rfl, rfl, hsound⟩ := commits_effect hc
  have hs := h.sound hsound
  refine ⟨hs, ?_, rfl, rfl⟩
  rw [← commits_commit hs]
  rcases hrun : exec commit s with ⟨e | a, t⟩
  · simp [Act.commits, hrun, Except.isOk, Except.toBool] at hc
  · simp [commits, hrun]

/-- A commit that does not return is no step of the nest. -/
theorem effect_commit (h : Held s) (hc : act.commits auto s = false)
    (he : act.effect auto s.server.failed = some .commit) : s.nest.commits = false := by
  obtain ⟨rfl, rfl, hsound⟩ : act = .does .commit ∧ auto = false ∧ s.server.failed = false := by
    cases act with
    | fails => cases he
    | does op =>
      cases op <;> cases auto <;> cases hfailed : s.server.failed <;> rw [hfailed] at he <;> cases he
      exact ⟨rfl, rfl, rfl⟩
  rw [← commits_commit (h.sound hsound)]
  rcases hrun : exec commit s with ⟨e | a, t⟩
  · simp [commits, hrun]
  · simp [Act.commits, hrun, Except.isOk, Except.toBool] at hc

theorem effect_write {failed : Bool} {f : δ → δ} (he : act.effect auto failed = some (.write f)) :
    act.writes = true := by
  cases act with
  | fails => cases he
  | does op => cases op <;> cases auto <;> cases failed <;> cases he <;> rfl

/-- Under a floor nothing becomes durable. -/
theorem committed_floor (h : Linked s) (hfloor : s.boundaries.isolationFloor ≠ 0)
    (hc : s.nest.commits = true) : (step .commit s).server.committed = s.server.committed := by
  obtain ⟨hnone, hle⟩ := (nest_commits h).mp hc
  have hstep : step .commit s = s.committed := by
    simp [step, perform, exec_commit h hle hnone]
  rw [hstep, Session.committed, if_neg hfloor]
  rfl

theorem above_below {op : Op δ} {depth i : Nat} (h : op.Above depth) (hi : i < depth) : op.Above (i + 1) := by
  cases op with
  | release d | rollback d => exact Nat.lt_of_le_of_lt hi h
  | _ => trivial

theorem of_take {frames : List (Frame δ)} {k i : Nat} {frame : Frame δ} (h : (frames.take k)[i]? = some frame) :
    frames[i]? = some frame := by
  rw [List.getElem?_take] at h
  split at h
  · exact h
  · cases h

/-- Where all above a depth hold the same data, what runs there and writes nothing changes none. -/
theorem quiet_step {n : Nest δ} {op : Op δ} {depth : Nat} {data : δ} (habove : op.Above depth)
    (hwrite : ∀ f, op ≠ .write f) (hcommit : op = .commit → n.commits = false) (hnow : n.now.data = data)
    (hframes : ∀ i frame, depth ≤ i → n.frames[i]? = some frame → frame.data = data) :
    (n.step op).now.data = data ∧
      ∀ i frame, depth ≤ i → (n.step op).frames[i]? = some frame → frame.data = data := by
  cases op with
  | write f => exact absurd rfl (hwrite f)
  | mark table consistent | floor d => exact ⟨hnow, hframes⟩
  | commit =>
    rw [Nest.step, if_neg (by simp [hcommit rfl])]
    exact ⟨hnow, hframes⟩
  | opens =>
    rw [Nest.step]
    split
    · refine ⟨hnow, fun i frame hi hframe => ?_⟩
      rw [List.getElem?_append] at hframe
      split at hframe
      · exact hframes i frame hi hframe
      · obtain rfl := List.mem_singleton.mp (List.mem_of_getElem? hframe)
        exact hnow
    · exact ⟨hnow, hframes⟩
  | release d =>
    rw [Nest.step]
    split
    · exact ⟨hnow, hframes⟩
    · refine ⟨hnow, fun i frame hi hframe => hframes i frame hi ?_⟩
      exact of_take hframe
  | rollback d =>
    have hd : depth < d := habove
    rw [Nest.step, if_neg (by omega)]
    split
    · exact ⟨hnow, hframes⟩
    · next frame hframe =>
      refine ⟨hframes (d - 1) frame (by omega) hframe, fun i frame hi hframe => hframes i frame hi ?_⟩
      exact of_take hframe

structure Upholds (auto : Bool) (depth : Nat) (s : Session δ) (c : Course δ) : Prop where
  held : Held c.now
  floor : c.now.boundaries.isolationFloor = s.boundaries.isolationFloor
  stands : depth ≤ c.now.depth
  below : ∀ i frame, i < depth → i < s.boundaries.isolationFloor → s.nest.frames[i]? = some frame →
    c.now.nest.frames[i]? = some frame
  durable : c.now.server.committed = c.settled.server.committed
  floored : s.boundaries.isolationFloor ≠ 0 → c.settled.server.committed = s.server.committed
  refuses : auto = true → c.settled = s
  scope : ∀ i, depth = i + 1 → s.boundaries.isolationFloor ≤ i → s.nest.frames[i]? = some s.nest.now →
    c.now.nest.frames[i]? = some c.settled.nest.now
  quiet : s.boundaries.isolationFloor ≤ depth → s.depth = depth → c.wrote = false →
    c.now.server.data = c.settled.server.data ∧
      ∀ i frame, depth ≤ i → c.now.nest.frames[i]? = some frame → frame.data = c.settled.server.data

theorem upholds_start {depth : Nat} (h : Held s) (hdepth : depth ≤ s.depth) : Upholds auto depth s (.start s) where
  held := h
  floor := rfl
  stands := hdepth
  below _ _ _ _ hi := hi
  durable := rfl
  floored _ := rfl
  refuses _ := rfl
  scope _ _ _ hi := hi
  quiet _ hat _ := by
    refine ⟨rfl, fun i frame hi hframe => ?_⟩
    have hlt : i < s.nest.depth := (List.getElem?_eq_some_iff.mp hframe).1
    rw [h.depth_nest] at hlt
    omega

/-- An act that is no commit that returns. -/
theorem upholds_passing {depth : Nat} (h : Upholds auto depth s c)
    (habove : act.Above depth) (hc : act.commits auto c.now = false) :
    Upholds auto depth s ⟨c.settled, act.run auto c.now, c.wrote || act.writes⟩ := by
  obtain ⟨hheld, hnest, hdurable⟩ := @act_comes δ auto _ h.held act
  have hkeeps : ∀ i frame, i < depth → c.now.nest.frames[i]? = some frame →
      (act.run auto c.now).nest.frames[i]? = some frame := by
    intro i frame hi hframe
    rw [hnest]
    cases heffect : act.effect auto c.now.server.failed with
    | none => exact hframe
    | some op =>
      have hop := effect_above habove heffect
      refine Nest.frame_step (above_below hop.1 hi) hframe fun hcommit hgo => ?_
      subst hcommit
      cases (effect_commit h.held hc heffect).symm.trans hgo
  have hfloor : (act.run auto c.now).boundaries.isolationFloor = c.now.boundaries.isolationFloor := by
    rw [← nest_floor, hnest, ← nest_floor]
    cases heffect : act.effect auto c.now.server.failed with
    | none => rfl
    | some op => exact Nest.floor_step (effect_above habove heffect).2 _
  refine ⟨hheld, hfloor.trans h.floor, ?_, ?_, (hdurable hc).trans h.durable, h.floored, h.refuses, ?_, ?_⟩
  · cases depth with
    | zero => exact Nat.zero_le _
    | succ i =>
      have hlt : i < c.now.nest.frames.length := by
        have hdepth : c.now.nest.frames.length = c.now.depth := h.held.depth_nest
        rw [hdepth]
        exact h.stands
      have hstays := hkeeps i _ (Nat.lt_succ_self i) (List.getElem?_eq_getElem hlt)
      have := (List.getElem?_eq_some_iff.mp hstays).1
      rw [show (act.run auto c.now).depth = (act.run auto c.now).nest.depth from hheld.depth_nest.symm]
      exact this
  · exact fun i frame hi hf hframe => hkeeps i frame hi (h.below i frame hi hf hframe)
  · rintro i rfl hf hframe
    exact hkeeps i _ (Nat.lt_succ_self i) (h.scope i rfl hf hframe)
  · intro hf hat hwrote
    obtain ⟨hbefore, hwrites⟩ := Bool.or_eq_false_iff.mp hwrote
    obtain ⟨hnow, hframes⟩ := h.quiet hf hat hbefore
    have hdata : (act.run auto c.now).nest.now.data = c.settled.server.data ∧ ∀ i frame, depth ≤ i →
        (act.run auto c.now).nest.frames[i]? = some frame → frame.data = c.settled.server.data := by
      rw [hnest]
      cases heffect : act.effect auto c.now.server.failed with
      | none => exact ⟨hnow, hframes⟩
      | some op =>
        refine quiet_step (effect_above habove heffect).1 ?_ ?_ hnow hframes
        · rintro f rfl
          cases (effect_write heffect).symm.trans hwrites
        · rintro rfl
          exact effect_commit h.held hc heffect
    exact hdata

/-- A commit that returns. -/
theorem upholds_commit {depth : Nat} (h : Upholds auto depth s c) (hc : act.commits auto c.now = true) :
    Upholds auto depth s ⟨act.run auto c.now, act.run auto c.now, false⟩ := by
  obtain ⟨hlinked, hgo, hrun, rfl⟩ := of_commits h.held hc
  have hcarried := carried hlinked .commit
  rw [hrun]
  have hdepth : (step .commit c.now).depth = c.now.depth := depth_commit hlinked
  have hclean : ∀ i, s.boundaries.isolationFloor ≤ i → i < c.now.depth →
      (step .commit c.now).nest.frames[i]? = some (step .commit c.now).nest.now := by
    intro i hf hi
    refine frame_committed hlinked ?_ hi (h.floor ▸ hf)
    rw [commits_commit hlinked, hgo]
  refine ⟨held_of_linked hcarried.linked, ?_, ?_, ?_, rfl, ?_, (by simp), ?_, ?_⟩
  · exact (floor_step hlinked rfl).trans h.floor
  · rw [hdepth]
    exact h.stands
  · intro i frame hi hf hframe
    rw [hcarried.nest]
    refine Nest.frame_step trivial (h.below i frame hi hf hframe) fun _ _ => ?_
    rw [nest_floor, h.floor]
    exact hf
  · intro hzero
    show (step .commit c.now).server.committed = _
    rw [committed_floor hlinked (by rwa [h.floor]) hgo, h.durable]
    exact h.floored hzero
  · rintro i rfl hf -
    exact hclean i hf h.stands
  · intro hf hat _
    refine ⟨rfl, fun i frame hi hframe => ?_⟩
    have hlt : i < (step .commit c.now).depth := by
      rw [← hcarried.linked.depth_nest]
      exact (List.getElem?_eq_some_iff.mp hframe).1
    rw [hdepth] at hlt
    cases hframe.symm.trans (hclean i (Nat.le_trans hf hi) hlt)
    rfl

theorem upholds_act {depth : Nat} (h : Upholds auto depth s c)
    (habove : act.Above depth) : Upholds auto depth s (c.act auto act) := by
  unfold Course.act
  cases hc : act.commits auto c.now with
  | true => exact upholds_commit h hc
  | false => exact upholds_passing h habove hc

theorem upholds_run {depth : Nat} (h : Upholds auto depth s c) {acts : List (Act δ)}
    (habove : ∀ act ∈ acts, act.Above depth) : Upholds auto depth s (c.run auto acts) := by
  induction acts generalizing c with
  | nil => exact h
  | cons act acts ih =>
    exact ih (upholds_act h (habove act List.mem_cons_self)) fun a ha => habove a (List.mem_cons_of_mem _ ha)

end Agiru.TestRunner
