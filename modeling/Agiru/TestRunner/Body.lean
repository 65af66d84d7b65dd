import Agiru.Transaction.Outcome

/-! What a test's code does to its session.

Its acts are operations on the session, whichever way they end, and statements that the server refuses and the
code swallows. A refused statement fails the block until a rollback: `Held` says that the session is linked but for
that, and `Act.effect` what is left of an operation then. -/
namespace Agiru.TestRunner
open Procedure
open Savepoints (Server)
open Transaction

variable {δ : Type}

inductive Act (δ : Type)
  | does (op : Op δ)
  | fails

/-- Code that runs at a depth leaves the boundaries there, and the isolation floor. -/
def Act.Above (depth : Nat) : Act δ → Prop
  | .does op => op.Above depth ∧ op.movesFloor = false
  | .fails => True

/-- A write, announced to the boundaries first; a failed block refuses its statement. -/
def written (f : δ → δ) (s : Session δ) : Session δ :=
  let t := (exec write s).2
  if t.server.failed then t else {t with server := Savepoints.write f t.server}

/-- One act. `Commit` is refused while an AutoRollback method runs. -/
def Act.run (auto : Bool) (s : Session δ) : Act δ → Session δ
  | .fails => {s with server := Savepoints.refuse s.server}
  | .does (.write f) => written f s
  | .does .commit => if auto then s else step .commit s
  | .does op => step op s

/-- Whether an act is a `Commit` that returns. -/
def Act.commits (auto : Bool) (s : Session δ) : Act δ → Bool
  | .does .commit => !auto && (exec commit s).1.isOk
  | _ => false

def Act.writes : Act δ → Bool
  | .does (.write _) => true
  | _ => false

/-- A session in the course of a code's acts: now, when its last `Commit` returned, and whether it wrote since. -/
structure Course (δ : Type) where
  settled : Session δ
  now : Session δ
  wrote : Bool := false

def Course.start (s : Session δ) : Course δ := ⟨s, s, false⟩

def Course.act (auto : Bool) (c : Course δ) (act : Act δ) : Course δ :=
  let t := act.run auto c.now
  if act.commits auto c.now then ⟨t, t, false⟩ else ⟨c.settled, t, c.wrote || act.writes⟩

def Course.run (auto : Bool) (c : Course δ) (acts : List (Act δ)) : Course δ := acts.foldl (Course.act auto) c

/-! ### A session whose block may have failed -/

/-- The session as if its block had not failed. -/
def mend (s : Session δ) : Session δ := {s with server := {s.server with failed := false}}

structure Held (s : Session δ) : Prop where
  linked : Linked (mend s)
  block : s.server.failed = true → s.server.inTransaction = true

@[simp] theorem nest_mend (s : Session δ) : (mend s).nest = s.nest := rfl

theorem mend_sound {s : Session δ} (h : s.server.failed = false) : mend s = s := by
  obtain ⟨b, ⟨data, committed, block, failed, stack⟩, sent⟩ := s
  cases h
  rfl

theorem held_of_linked {s : Session δ} (h : Linked s) : Held s :=
  ⟨by rwa [mend_sound h.sound], fun hfailed => by cases h.sound.symm.trans hfailed⟩

theorem Held.sound {s : Session δ} (h : Held s) (hsound : s.server.failed = false) : Linked s := by
  have hlinked := h.linked
  rwa [mend_sound hsound] at hlinked

theorem Held.depth_nest {s : Session δ} (h : Held s) : s.nest.depth = s.depth := h.linked.depth_nest

/-- The operation that an act comes to, where the block has failed or not. -/
def Act.effect (auto failed : Bool) : Act δ → Option (Op δ)
  | .fails => none
  | .does .opens => if failed then none else some .opens
  | .does (.write f) => some (.write (if failed then id else f))
  | .does .commit => if auto || failed then none else some .commit
  | .does (.release depth) => some (if failed then .rollback depth else .release depth)
  | .does op => some op

/-- A nest after what an act comes to. -/
def after (n : Nest δ) : Option (Op δ) → Nest δ
  | none => n
  | some op => n.step op

theorem held_issued {s t : Session δ} (h : Held s) (hnames : t.boundaries.names = s.boundaries.names)
    (hissued : s.boundaries.issued ≤ t.boundaries.issued) (hserver : t.server = s.server) : Held t where
  linked := by
    have hlinked := h.linked
    refine ⟨?_, ?_, ?_, ?_, rfl, ?_⟩
    · show t.server.savepoints.map Prod.fst = t.boundaries.names.map _
      rw [hserver, hnames]
      exact hlinked.names
    · show (t.boundaries.names.map _).Nodup
      rw [hnames]
      exact hlinked.distinct
    · intro name hname
      replace hname : name ∈ t.boundaries.names.map _ := hname
      rw [hnames] at hname
      obtain ⟨k, hk, he⟩ := hlinked.issued name hname
      exact ⟨k, Nat.le_trans hk hissued, he⟩
    · intro hne
      show t.server.inTransaction = true
      rw [hserver]
      have hsome : t.boundaries.names ≠ [] := hne
      rw [hnames] at hsome
      exact hlinked.inBlock hsome
    · show t.server.inTransaction = false → t.server.committed = t.server.data
      rw [hserver]
      exact hlinked.settled
  block := by rw [hserver]; exact h.block

/-! ### What an act comes to -/

/-- What an act that commits nothing leaves. -/
structure Comes (effect : Option (Op δ)) (s t : Session δ) : Prop where
  held : Held t
  nest : t.nest = after s.nest effect
  committed : t.server.committed = s.server.committed

theorem Comes.nothing {s : Session δ} (h : Held s) : Comes none s s := ⟨h, rfl, rfl⟩

/-- A rollback leaves a block that has not failed. -/
theorem rollback_held {s : Session δ} (h : Held s) {i : Nat} (hi : i < s.depth) :
    ∃ t, exec (rollback (i + 1)) s = (.ok (), t) ∧ Linked t ∧
      Comes (some (.rollback (i + 1))) s t := by
  have hnames : i < s.boundaries.names.length := hi
  have hs : i < s.server.savepoints.length := h.linked.length ▸ hnames
  have hfound : Savepoints.named s.boundaries.names[i].name s.server.savepoints =
      some (s.server.savepoints.take i, s.server.savepoints[i].2) := h.linked.named_name hnames hs
  have hblock : s.server.inTransaction = true := h.linked.inBlock
      (List.ne_nil_of_length_pos (Nat.zero_lt_of_lt hi))
  have hkept : Savepoints.named s.boundaries.names[i].name
      (s.server.savepoints.take i ++ [(s.boundaries.names[i].name, s.server.savepoints[i].2)]) =
      some (s.server.savepoints.take i, s.server.savepoints[i].2) := Savepoints.named_append (by simp)
  have hrun : exec (rollback (i + 1)) s =
      (.ok (), (mend s).rolledBack i s.boundaries.names[i] s.server.savepoints[i].2) := by
    simp [rollback, exec_bind, List.getElem?_eq_getElem hnames, send, Savepoints.execute,
      hblock, hfound, hkept, Session.rolledBack, mend]
  have hcarried := carried h.linked (.rollback (i + 1))
  rw [show step (.rollback (i + 1)) (mend s) = (mend s).rolledBack i s.boundaries.names[i]
    s.server.savepoints[i].2 by
      simp [step, perform, exec_rollback h.linked hnames hs]; rfl] at hcarried
  exact ⟨_, hrun, hcarried.linked, held_of_linked hcarried.linked, hcarried.nest, rfl⟩

theorem release_held {s : Session δ} (h : Held s) (hfailed : s.server.failed = true) {i : Nat} (hi : i < s.depth) :
    ∃ t, exec (release (i + 1)) s = (.error .notKept, t) ∧ Linked t ∧
      Comes (some (.rollback (i + 1))) s t := by
  have hnames : i < s.boundaries.names.length := hi
  obtain ⟨name, hname⟩ : ∃ name, s.boundaries.names[i].name = name := ⟨_, rfl⟩
  have hrefused : exec (send (.release name)) s =
      (.error .database, {s with sent := s.sent ++ [.release name]}) := by
    have hblock := h.block hfailed
    obtain ⟨b, ⟨data, committed, block, failed, stack⟩, sent⟩ := s
    cases hfailed
    cases hblock
    simp [send, exec_bind, Savepoints.execute, Savepoints.refuse]
  have hsent : Held {s with sent := s.sent ++ [.release name]} := held_issued h rfl (Nat.le_refl _) rfl
  obtain ⟨t, hrun, hlinked, hcomes⟩ := rollback_held hsent hi
  refine ⟨t, ?_, hlinked, hcomes.held, hcomes.nest, hcomes.committed⟩
  simp [release, exec_bind, exec_tryCatch, List.getElem?_eq_getElem hnames, hname, hrefused, hrun]

/-- A depth at which no boundary stands. -/
theorem after_beyond {n : Nest δ} {depth : Nat} (h : depth = 0 ∨ n.depth < depth) :
    n.step (.rollback depth) = n ∧ n.step (.release depth) = n := by
  constructor
  · rcases h with rfl | h
    · rfl
    · have hnone : n.frames[depth - 1]? = none := List.getElem?_eq_none_iff.mpr (Nat.le_sub_one_of_lt h)
      simp [Nest.step, hnone]
  · simp [Nest.step, h]

theorem opens_failed {s : Session δ} (h : Held s) (hfailed : s.server.failed = true) :
    ∃ e t, exec openBoundary s = (.error e, t) ∧ Comes none s t := by
  by_cases hfloor : s.boundaries.isolationFloor > s.boundaries.names.length
  · exact ⟨.lostIsolation, s, exec_open_lost (Nat.not_le.mpr hfloor), .nothing h⟩
  · have hblock := h.block hfailed
    obtain ⟨t, hrun, hnames, hissued, hserver, hnest⟩ : ∃ t,
        exec openBoundary s = (.error .database, t) ∧
        t.boundaries.names = s.boundaries.names ∧ s.boundaries.issued ≤ t.boundaries.issued ∧
          t.server = s.server ∧ t.nest = s.nest := by
      obtain ⟨b, ⟨data, committed, block, failed, stack⟩, sent⟩ := s
      cases hfailed
      cases hblock
      refine ⟨?_, ?_, ?_⟩
      rotate_left
      · unfold openBoundary
        rw [exec_bind_ok (exec_get _)]
        dsimp only [boundaries_session]
        rw [if_neg hfloor]
        rfl
      · exact ⟨rfl, Nat.le_succ _, rfl, rfl⟩
    exact ⟨_, t, hrun, held_issued h hnames hissued hserver, hnest, by rw [hserver]⟩

theorem commit_failed {s : Session δ} (hfailed : s.server.failed = true) :
    ∃ e, exec commit s = (.error e, s) := by
  by_cases hfloor : s.boundaries.isolationFloor > s.boundaries.names.length
  · exact ⟨.lostIsolation, exec_commit_forbidden (by simp [mayCommit, hfloor])⟩
  · exact ⟨.failedCommit, exec_commit_forbidden (by simp [mayCommit, exec_bind, hfloor, hfailed])⟩

/-- Only a commit that goes through makes anything durable. -/
theorem committed_step {s : Session δ} (h : Linked s) {op : Op δ} (hop : commits op s = false) :
    (step op s).server.committed = s.server.committed := by
  cases op with
  | opens =>
    by_cases hfloor : s.boundaries.isolationFloor ≤ s.depth
    · simp [step, perform, exec_open h hfloor, Session.opened]
    · simp [step, perform, exec_open_lost hfloor]
  | write f => simp [step, exec_write h, Session.written]
  | mark table consistent | floor depth => rfl
  | commit =>
    obtain ⟨e, hrefused⟩ := exec_commit_refused h fun hfloor hnone => by
      simp [commits, exec_commit h hfloor hnone] at hop
    simp [step, perform, hrefused]
  | release depth =>
    by_cases hd : depth = 0 ∨ s.depth < depth
    · simp [step, perform, exec_release_beyond hd]
    · obtain ⟨i, rfl, hi⟩ := depth_within hd
      simp [step, perform, exec_release h hi (h.length ▸ hi), Session.released]
  | rollback depth =>
    by_cases hd : depth = 0 ∨ s.depth < depth
    · simp [step, perform, exec_rollback_beyond hd]
    · obtain ⟨i, rfl, hi⟩ := depth_within hd
      simp [step, perform, exec_rollback h hi (h.length ▸ hi), Session.rolledBack]

theorem commits_effect {auto : Bool} {s : Session δ} {act : Act δ} (h : act.commits auto s = true) :
    act = .does .commit ∧ auto = false ∧ s.server.failed = false := by
  cases act with
  | fails => cases h
  | does op =>
    cases op with
    | commit =>
      obtain ⟨hauto, hok⟩ := Bool.and_eq_true_iff.mp h
      refine ⟨rfl, by simpa using hauto, ?_⟩
      cases hfailed : s.server.failed with
      | false => rfl
      | true =>
        obtain ⟨e, hrun⟩ := commit_failed hfailed
        rw [hrun] at hok
        cases hok
    | _ => cases h

theorem written_sound {s : Session δ} (h : Linked s) (f : δ → δ) :
    written f s = step (.write f) s := by
  have hsound := h.sound
  cases hblock : s.server.inTransaction <;>
    simp [written, write, step, perform, exec_bind, hblock, hsound, send, Savepoints.execute]

/-- A failed block takes none of a test's statements but a rollback, and a release becomes one. -/
theorem failed_comes {auto : Bool} {s : Session δ} (h : Held s) (hfailed : s.server.failed = true) (op : Op δ) :
    Comes (Act.effect auto true (.does op)) s ((Act.does op).run auto s) := by
  have hmarks : ∀ {f : Boundaries → Boundaries}, (∀ b, (f b).names = b.names ∧ b.issued ≤ (f b).issued) →
      Held {s with boundaries := f s.boundaries} :=
    fun hf => held_issued h (hf s.boundaries).1 (hf s.boundaries).2 rfl
  cases op with
  | opens =>
    obtain ⟨e, t, hrun, hc⟩ := opens_failed h hfailed
    have hstep : (Act.does .opens).run auto s = t := by
      simp [Act.run, step, perform, hrun]
    rw [hstep]
    exact hc
  | write f =>
    have hblock := h.block hfailed
    have hstep : (Act.does (.write f)).run auto s =
        {s with boundaries := {s.boundaries with writing := true}} := by
      simp [Act.run, written, write, exec_bind, hblock, hfailed]
    rw [hstep]
    exact ⟨hmarks (f := fun b => {b with writing := true}) fun b => ⟨rfl, Nat.le_refl _⟩, rfl, rfl⟩
  | mark table consistent | floor depth => exact ⟨held_issued h rfl (Nat.le_refl _) rfl, rfl, rfl⟩
  | commit =>
    obtain ⟨e, hrun⟩ := commit_failed hfailed
    have hstep : (Act.does .commit).run auto s = s := by
      cases auto <;> simp [Act.run, step, perform, hrun]
    have heffect : Act.effect auto true (.does .commit : Act δ) = none := by simp [Act.effect]
    rw [hstep, heffect]
    exact .nothing h
  | release depth =>
    by_cases hd : depth = 0 ∨ s.depth < depth
    · have hstep : (Act.does (.release depth)).run auto s = s := by
        simp [Act.run, step, perform, exec_release_beyond hd]
      rw [hstep]
      exact ⟨h, (after_beyond (h.depth_nest.symm ▸ hd)).1.symm, rfl⟩
    · obtain ⟨i, rfl⟩ : ∃ i, depth = i + 1 := ⟨depth - 1, by omega⟩
      obtain ⟨t, hrun, -, hc⟩ := release_held h hfailed (i := i) (by omega)
      have hstep : (Act.does (.release (i + 1))).run auto s = t := by
        simp [Act.run, step, perform, hrun]
      rw [hstep]
      exact hc
  | rollback depth =>
    by_cases hd : depth = 0 ∨ s.depth < depth
    · have hstep : (Act.does (.rollback depth)).run auto s = s := by
        simp [Act.run, step, perform, exec_rollback_beyond hd]
      rw [hstep]
      exact ⟨h, (after_beyond (h.depth_nest.symm ▸ hd)).1.symm, rfl⟩
    · obtain ⟨i, rfl⟩ : ∃ i, depth = i + 1 := ⟨depth - 1, by omega⟩
      obtain ⟨t, hrun, -, hc⟩ := rollback_held h (i := i) (by omega)
      have hstep : (Act.does (.rollback (i + 1))).run auto s = t := by
        simp [Act.run, step, perform, hrun]
      rw [hstep]
      exact hc

/-- An act is one step of the session's nest, or none; only a `Commit` that returns makes anything durable. -/
theorem act_comes {auto : Bool} {s : Session δ} (h : Held s) (act : Act δ) :
    Held (act.run auto s) ∧ (act.run auto s).nest = after s.nest (act.effect auto s.server.failed) ∧
      (act.commits auto s = false → (act.run auto s).server.committed = s.server.committed) := by
  cases act with
  | fails => exact ⟨⟨h.linked, fun hfailed => hfailed⟩, rfl, fun _ => rfl⟩
  | does op =>
    cases hfailed : s.server.failed with
    | true =>
      have hc := @failed_comes δ auto _ h hfailed op
      exact ⟨hc.held, hc.nest, fun _ => hc.committed⟩
    | false =>
      have hs := h.sound hfailed
      have hc := carried hs op
      by_cases hcommit : op = .commit
      · subst hcommit
        cases auto with
        | true => exact ⟨h, rfl, fun _ => rfl⟩
        | false =>
          refine ⟨held_of_linked hc.linked, hc.nest, fun hnot => committed_step hs ?_⟩
          rcases hrun : exec commit s with ⟨e | a, t⟩
          · simp [commits, hrun]
          · simp [Act.commits, hrun, Except.isOk, Except.toBool] at hnot
      · have hrun : (Act.does op).run auto s = step op s := by
          cases op with
          | write f => exact written_sound hs f
          | commit => exact absurd rfl hcommit
          | _ => rfl
        have heffect : Act.effect auto false (.does op) = some op := by
          cases op with
          | commit => exact absurd rfl hcommit
          | _ => rfl
        rw [hrun, heffect]
        refine ⟨held_of_linked hc.linked, hc.nest, fun _ => committed_step hs ?_⟩
        cases op with
        | commit => exact absurd rfl hcommit
        | _ => rfl

end Agiru.TestRunner
