import Agiru.Transaction.Simulation

/-! What a rollback restores.

`sinceCommit` is the session at the last commit of a run that went through, or where
the run began. A rollback of an open boundary goes back to it, at any depth and
under any floor below the boundary; under a floor a boundary at the floor itself goes
back to where it was opened. -/
namespace Agiru.Transaction
open Procedure

variable {δ : Type}
variable {mid : List (Op δ)}

/-- Whether an operation is a commit that goes through. -/
def commits (op : Op δ) (s : Session δ) : Bool :=
  match op, (exec commit s).1 with
  | .commit, .ok _ => true
  | _, _ => false

def sinceCommit (held s : Session δ) : List (Op δ) → Session δ
  | [] => held
  | op :: rest => sinceCommit (if commits op s then step op s else held) (step op s) rest

theorem commits_commit {s : Session δ} (h : Linked s) : commits .commit s = s.nest.commits := by
  cases hc : s.nest.commits with
  | true =>
    obtain ⟨hi, hf⟩ := (nest_commits h).mp hc
    simp [commits, exec_commit h hf hi]
  | false =>
    obtain ⟨failure, he⟩ := exec_commit_refused h fun hf hi =>
      absurd ((nest_commits h).mpr ⟨hi, hf⟩) (by simp [hc])
    simp [commits, he]

theorem sinceCommit_nest {held s : Session δ} (h : Linked s) (ops : List (Op δ)) :
    (sinceCommit held s ops).nest.now = s.nest.lastCommit held.nest.now ops := by
  induction ops generalizing held s with
  | nil => rfl
  | cons op rest ih =>
    have hrest := @ih (if commits op s then step op s else held) _ (carried h op).linked
    rw [(carried h op).nest] at hrest
    refine hrest.trans ?_
    cases op with
    | commit =>
      rw [Nest.lastCommit, commits_commit h]
      by_cases hc : s.nest.commits = true
      · rw [if_pos hc, if_pos hc, (carried h .commit).nest, Nest.step, if_pos hc]
      · rw [if_neg hc, if_neg hc]
    | _ => rfl

/-- A run without commits has only its beginning. -/
theorem sinceCommit_none {held s : Session δ} {ops : List (Op δ)} (hops : .commit ∉ ops) :
    sinceCommit held s ops = held := by
  induction ops generalizing s with
  | nil => rfl
  | cons op rest ih =>
    have hop : commits op s = false := by
      cases op with
      | commit => exact absurd List.mem_cons_self hops
      | _ => rfl
    rw [sinceCommit, hop]
    exact ih fun hmem => hops (List.mem_cons_of_mem _ hmem)

/-- A rollback restores the frame of its boundary. -/
theorem rollback_frame {s : Session δ} (h : Linked s) {i : Nat} {frame : Frame δ}
    (hi : s.nest.frames[i]? = some frame) :
    (step (.rollback (i + 1)) s).nest.now = frame ∧ (step (.rollback (i + 1)) s).depth = i := by
  have hlinked := (carried h (.rollback (i + 1))).linked
  have hstep := (carried h (.rollback (i + 1))).nest
  rw [Nest.step_rollback hi] at hstep
  have hlt : i < s.nest.frames.length := (List.getElem?_eq_some_iff.mp hi).1
  refine ⟨by rw [hstep], ?_⟩
  rw [← hlinked.depth_nest, hstep, Nest.depth, List.length_take]
  omega

/-- The boundary just opened holds the present frame. -/
theorem frame_opened {s : Session δ} (h : Linked s) (hf : s.boundaries.isolationFloor ≤ s.depth) :
    (step .opens s).nest.frames[s.depth]? = some (step .opens s).nest.now := by
  have hlen : s.nest.frames.length = s.depth := h.depth_nest
  rw [(carried h .opens).nest, Nest.step, h.depth_nest, nest_floor, if_pos hf]
  show (s.nest.frames ++ [s.nest.now])[s.depth]? = some s.nest.now
  rw [List.getElem?_append_right (by omega), hlen, Nat.sub_self]
  rfl

/-- A boundary above the floors of a run is rolled back to the last commit since. -/
theorem rollback_since {s : Session δ} (h : Linked s) {i : Nat}
    (hi : s.nest.frames[i]? = some s.nest.now) (hf : s.boundaries.isolationFloor ≤ i)
    (hmid : ∀ op ∈ mid, op.Above (i + 1)) (hfloors : ∀ depth, .floor depth ∈ mid → depth ≤ i) :
    (step (.rollback (i + 1)) (run s mid)).nest.now = (sinceCommit s s mid).nest.now ∧
      (step (.rollback (i + 1)) (run s mid)).depth = i := by
  rw [sinceCommit_nest h]
  refine rollback_frame (linked_run h mid) ?_
  rw [nest_run h]
  exact Nest.frame_run hmid hi hf hfloors

theorem rollback_opened {s : Session δ} (h : Linked s) (hf : s.boundaries.isolationFloor ≤ s.depth)
    (hmid : ∀ op ∈ mid, op.Above (s.depth + 1))
    (hfloors : ∀ depth, .floor depth ∈ mid → depth ≤ s.depth) :
    (step (.rollback (s.depth + 1)) (run (step .opens s) mid)).nest.now =
        (sinceCommit (step .opens s) (step .opens s) mid).nest.now ∧
      (step (.rollback (s.depth + 1)) (run (step .opens s) mid)).depth = s.depth :=
  rollback_since (carried h .opens).linked (frame_opened h hf) (by rwa [floor_step h rfl]) hmid hfloors

theorem depth_commit {s : Session δ} (h : Linked s) : (step .commit s).depth = s.depth := by
  rw [← (carried h .commit).linked.depth_nest, ← h.depth_nest, (carried h .commit).nest, Nest.depth_commit]

theorem data_release {s : Session δ} (h : Linked s) (depth : Nat) :
    (step (.release depth) s).nest.now = s.nest.now := by
  rw [(carried h (.release depth)).nest, Nest.step]
  split <;> rfl

/-- Without a floor a commit leaves its contents for good. -/
theorem committed_commit {s : Session δ} (h : Linked s)
    (hzero : s.boundaries.isolationFloor = 0) (hc : commits .commit s = true) :
    (step .commit s).server.committed = s.server.data := by
  rw [commits_commit h] at hc
  obtain ⟨hi, hf⟩ := (nest_commits h).mp hc
  have hstep : step .commit s = s.committed := by
    simp [step, perform, exec_commit h hf hi]
  rw [hstep, Session.committed, if_pos hzero]
  rfl

/-- Without a floor every boundary open at a commit holds the committed frame. -/
theorem frame_committed {s : Session δ} (h : Linked s)
    (hc : commits .commit s = true) {i : Nat} (hi : i < s.depth)
    (hf : s.boundaries.isolationFloor ≤ i) :
    (step .commit s).nest.frames[i]? = some (step .commit s).nest.now := by
  rw [commits_commit h] at hc
  have hframe := Nest.frame_commit (h.depth_nest ▸ hi) hf hc
  rw [(carried h .commit).nest, hframe, Nest.step, if_pos hc]

theorem floorless_run {s : Session δ} (h : Linked s) {ops : List (Op δ)}
    (hops : ∀ op ∈ ops, op.movesFloor = false) :
    (run s ops).boundaries.isolationFloor = s.boundaries.isolationFloor := by
  rw [← nest_floor, nest_run h, Nest.floor_run hops, nest_floor]

/-- Boundaries are nested transactions. After any run without a floor the savepoints
are the boundaries in order and the block is sound; a commit leaves the boundaries open
and makes the contents durable, a release keeps the contents, and a rollback of a
boundary, just opened or standing at a commit, restores the contents of the last commit
since, or those it was opened or committed with. -/
theorem boundaries_are_nested_transactions (data : δ) (ops : List (Op δ))
    (hops : ∀ op ∈ ops, op.movesFloor = false) :
    let s := run (initial data) ops
    s.server.savepoints.map Prod.fst = s.boundaries.names.map Boundary.name ∧
    s.server.failed = false ∧
    (step .commit s).depth = s.depth ∧
    (commits .commit s = true → (step .commit s).server.committed = s.server.data) ∧
    (∀ d, (step (.release d) s).nest.now = s.nest.now) ∧
    (exec openBoundary s).1 = .ok (s.depth + 1) ∧
    (∀ mid : List (Op δ), (∀ op ∈ mid, op.movesFloor = false) →
      (∀ op ∈ mid, op.Above (s.depth + 1)) →
      let opened := step .opens s
      let back := step (.rollback (s.depth + 1)) (run opened mid)
      back.server.data = (sinceCommit opened opened mid).server.data ∧ back.depth = s.depth) ∧
    (∀ d, 1 ≤ d → d ≤ s.depth → commits .commit s = true →
      ∀ mid : List (Op δ), (∀ op ∈ mid, op.movesFloor = false) → (∀ op ∈ mid, op.Above d) →
      let kept := step .commit s
      let back := step (.rollback d) (run kept mid)
      back.server.data = (sinceCommit kept kept mid).server.data ∧ back.depth = d - 1) := by
  intro s
  have h : Linked s := linked_run (linked_initial data) ops
  have hzero : s.boundaries.isolationFloor = 0 := floorless_run (linked_initial data) hops
  have hf : s.boundaries.isolationFloor ≤ s.depth := hzero ▸ Nat.zero_le _
  have hnone : ∀ {mid : List (Op δ)} {i : Nat}, (∀ op ∈ mid, op.movesFloor = false) →
      ∀ depth, .floor depth ∈ mid → depth ≤ i := by
    intro mid i hmid depth hmem
    cases hmid _ hmem
  refine ⟨h.names, h.sound, depth_commit h, committed_commit h hzero, data_release h, by rw [exec_open h hf], ?_, ?_⟩
  · intro mid hfixed hmid opened back
    obtain ⟨hnow, hdepth⟩ := rollback_opened h hf hmid (hnone hfixed)
    exact ⟨congrArg Frame.data hnow, hdepth⟩
  · intro d hpos hd hc mid hfixed hmid kept back
    obtain ⟨i, rfl⟩ : ∃ i, d = i + 1 := ⟨d - 1, by omega⟩
    have hframe := frame_committed h hc (i := i) (by omega) (hzero ▸ Nat.zero_le _)
    obtain ⟨hnow, hdepth⟩ := rollback_since (carried h .commit).linked hframe
      (by rw [floor_step h rfl, hzero]; exact Nat.zero_le _) hmid (hnone hfixed)
    exact ⟨congrArg Frame.data hnow, hdepth⟩

/-- A write between two openings is committed and stays when the first is rolled back. -/
theorem boundaries_are_nested_transactions_commit :
    (step (.rollback 1) (run (step .commit (run (initial 0) [.opens, .write Nat.succ, .opens]))
      [.write Nat.succ])).server.data = 1 := by
  have hthm := boundaries_are_nested_transactions 0 [.opens, .write Nat.succ, .opens]
    (by simp [Op.movesFloor])
  obtain ⟨-, -, -, -, -, -, -, hkept⟩ := hthm
  have hback := (hkept 1 (by decide) (by decide) (by decide) [.write Nat.succ]
    (by simp [Op.movesFloor]) (by simp [Op.Above])).1
  rw [hback]
  decide

/-- An opening that answered was not refused. -/
theorem open_answered {s : Session δ} (h : Linked s) {depth : Nat}
    (hopen : (exec openBoundary s).1 = .ok depth) :
    depth = s.depth + 1 ∧ s.boundaries.isolationFloor ≤ s.depth := by
  by_cases hf : s.boundaries.isolationFloor ≤ s.depth
  · rw [exec_open h hf] at hopen
    cases hopen
    exact ⟨rfl, hf⟩
  · simp [exec_open_lost hf] at hopen

/-- What runs above boundary `f`, the floor put on it included. -/
theorem above_isolated {before : List (Op δ)} {f : Nat} (hbefore : ∀ op ∈ before, op.Above f ∧ op.movesFloor = false)
    (hmid : ∀ op ∈ mid, op.Above f ∧ op.movesFloor = false) :
    ∀ op ∈ before ++ .floor f :: mid, op.Above f ∧ ∀ depth, op = .floor depth → depth = f := by
  have hone : ∀ op : Op δ, op.Above f ∧ op.movesFloor = false →
      op.Above f ∧ ∀ depth, op = .floor depth → depth = f := by
    intro op ⟨habove, hfixed⟩
    refine ⟨habove, fun depth he => ?_⟩
    subst he
    cases hfixed
  intro op hop
  rcases List.mem_append.mp hop with hb | hm
  · exact hone op (hbefore op hb)
  · rcases List.mem_cons.mp hm with rfl | hm
    · exact ⟨trivial, fun depth he => by cases he; rfl⟩
    · exact hone op (hmid op hm)

/-- Under a test's isolation floor nothing leaves the test. Boundary `f` is opened, the
floor is put on it, and whatever runs above it sends no commit, leaves its savepoint
standing, and is undone when it is rolled back; a boundary opened meanwhile is still
rolled back to the last commit since. -/
theorem isolation_floor_restores (data : δ) (ops before mid : List (Op δ)) (f : Nat)
    (hopen : (exec openBoundary (run (initial data) ops)).1 = .ok f)
    (hbefore : ∀ op ∈ before, op.Above f ∧ op.movesFloor = false)
    (hmid : ∀ op ∈ mid, op.Above f ∧ op.movesFloor = false) :
    let s := run (initial data) ops
    let opened := step .opens s
    let floored := step (.floor f) (run opened before)
    let done := run floored mid
    let back := step (.rollback f) done
    (∃ sts, done.sent = floored.sent ++ sts ∧ .commit ∉ sts) ∧
    done.server.savepoints[f - 1]?.map Prod.fst =
      floored.boundaries.names[f - 1]?.map Boundary.name ∧ f ≤ done.depth ∧
    back.nest.now = (sinceCommit opened opened before).nest.now ∧ back.depth = s.depth ∧
    (.commit ∉ before → back.server.data = s.server.data ∧
      back.boundaries.inconsistent = s.boundaries.inconsistent ∧
      back.boundaries.writing = s.boundaries.writing) ∧
    (∀ first inner rest : List (Op δ), before ++ .floor f :: mid = first ++ .opens :: inner ++ rest →
      let u := run opened first
      (∀ op ∈ inner, op.Above (u.depth + 1)) →
      (step (.rollback (u.depth + 1)) (run (step .opens u) inner)).server.data =
        (sinceCommit (step .opens u) (step .opens u) inner).server.data) := by
  intro s opened floored done back
  have h : Linked s := linked_run (linked_initial data) ops
  obtain ⟨rfl, hf⟩ := open_answered h hopen
  have hopened : Linked opened := (carried h .opens).linked
  have hbound : opened.boundaries.isolationFloor ≤ s.depth := by rwa [floor_step h rfl]
  have hrun : Linked (run opened before) := linked_run hopened before
  have hfloored : Linked floored := (carried hrun _).linked
  have hset : floored.boundaries.isolationFloor = s.depth + 1 := rfl
  have hfixed : ∀ op ∈ mid, op.movesFloor = false := fun op ho => (hmid op ho).2
  have habove : ∀ op ∈ mid, op.Above (s.depth + 1) := fun op ho => (hmid op ho).1
  -- the frame of boundary `f`: opened, kept to the floor, and under the floor for good
  have hkept : floored.nest.frames[s.depth]? =
      some (opened.nest.lastCommit opened.nest.now before) := by
    rw [(carried hrun _).nest, nest_run hopened]
    refine Nest.frame_run (fun op ho => (hbefore op ho).1) (frame_opened h hf) hbound ?_
    intro depth hmem
    cases (hbefore _ hmem).2
  have hdone : done.nest.frames[s.depth]? =
      some (opened.nest.lastCommit opened.nest.now before) := by
    rw [nest_run hfloored]
    exact Nest.frame_run_floor habove hfixed hkept (Nat.lt_succ_self _)
  have hlinked : Linked done := linked_run hfloored mid
  have hstands : s.depth < floored.depth := by
    rw [← hfloored.depth_nest]
    exact (List.getElem?_eq_some_iff.mp hkept).1
  obtain ⟨hnow, hdepth⟩ := rollback_frame hlinked hdone
  have hrestored : back.nest.now = (sinceCommit opened opened before).nest.now := by
    rw [sinceCommit_nest hopened]
    exact hnow
  refine ⟨sent_run hfloored (hset ▸ Nat.succ_ne_zero _) hfixed, ?_, ?_, hrestored, hdepth, ?_, ?_⟩
  · have hsame := stays_run hfloored (hset ▸ Nat.lt_succ_self _) hstands hfixed habove
    rw [Nat.add_sub_cancel, hsame, ← List.getElem?_map, ← List.getElem?_map, hfloored.names]
  · rw [← hlinked.depth_nest]
    exact (List.getElem?_eq_some_iff.mp hdone).1
  · intro hnone
    have hsame : opened.nest.now = s.nest.now := by
      rw [(carried h .opens).nest, Nest.step]
      split <;> rfl
    rw [sinceCommit_none hnone, hsame] at hrestored
    exact ⟨congrArg Frame.data hrestored, congrArg Frame.inconsistent hrestored, congrArg Frame.writing hrestored⟩
  · intro first inner rest hsplit u hinner
    have hall := above_isolated hbefore hmid
    rw [hsplit] at hall
    have hfirst : ∀ op ∈ first, op.Above (s.depth + 1) ∧
        ∀ depth, op = .floor depth → depth = s.depth + 1 := fun op ho => hall op (by simp [ho])
    have hu : Linked u := linked_run hopened first
    -- boundary `f` still stands, so the floor is at or under the boundary opened here
    have hover : s.depth < u.depth := by
      rw [← hu.depth_nest, nest_run hopened]
      refine Nest.depth_run (fun op ho => (hfirst op ho).1) ?_
      exact (List.getElem?_eq_some_iff.mp (frame_opened h hf)).1
    have hunder : u.boundaries.isolationFloor ≤ u.depth := by
      rw [← nest_floor, nest_run hopened]
      refine Nest.floor_run_le (Nat.le_trans hbound (Nat.le_of_lt hover)) fun depth hmem => ?_
      exact (hfirst _ hmem).2 depth rfl ▸ hover
    have hinside : ∀ depth, .floor depth ∈ inner → depth ≤ u.depth := fun depth hmem =>
      (hall _ (by simp [hmem])).2 depth rfl ▸ hover
    exact congrArg Frame.data (rollback_opened hu hunder hinner hinside).1

/-- A test that writes, commits and writes again inside its boundary leaves nothing. -/
theorem isolation_floor_restores_commit :
    (step (.rollback 1) (run (step (.floor 1) (run (step .opens (run (initial 0) [])) []))
      [.write Nat.succ, .commit, .opens, .write Nat.succ, .commit])).server.data = 0 := by
  have hthm := isolation_floor_restores 0 [] []
    [.write Nat.succ, .commit, .opens, .write Nat.succ, .commit] 1 (by decide) (by simp)
    (by simp [Op.Above, Op.movesFloor])
  obtain ⟨-, -, -, -, -, hrestored, -⟩ := hthm
  have hback := (hrestored (by simp)).1
  rw [hback]
  rfl

end Agiru.Transaction
