import Agiru.Command.Session

/-! What the statements of a command leave true.

`Sound` is what the server keeps to: what is durable is what it committed last, nothing is pending outside a
block, and a connection that is lost has none. `Steady` carries any such property through the members of
`Boundaries`, once it survives every statement but a commit. -/
namespace Agiru.Command
open Procedure
open Transaction (Boundaries Boundary openBoundary release rollback write reopen endBlock commitBlock releaseAbove
  commitKept mayCommit forget modifyBoundaries commit)
open Savepoints (Statement Server)

variable {δ : Type}
variable {sql : Sql δ} {s : State δ}

/-! ### One statement -/

theorem send_unusable (h : s.link ≠ .usable) : exec (send sql) s = (.error (.boundaries .database), s) := by
  simp [send, exec_bind, h]

theorem send_usable (sql : Sql δ) (h : s.link = .usable) :
    (∃ t, s.used.serve sql = some t ∧ exec (send sql) s = (.ok (), t)) ∨
      exec (send sql) s = (.error (.boundaries .database), s.used.refuse sql) ∨
        ∃ t, (t = s.used ∨ s.used.serve sql = some t) ∧
          exec (send sql) s = (.error (.boundaries .database), t.lose) := by
  cases hfate : s.fate with
  | served =>
    cases hserve : s.used.serve sql with
    | none => simp [send, exec_bind, h, hfate, hserve]
    | some t => exact .inl ⟨t, rfl, by simp [send, exec_bind, h, hfate, hserve]⟩
  | refused => exact .inr (.inl (by simp [send, exec_bind, h, hfate]))
  | lost executed =>
    refine .inr (.inr ?_)
    cases executed with
    | false => exact ⟨s.used, .inl rfl, by simp [send, exec_bind, h, hfate]⟩
    | true =>
      cases hserve : s.used.serve sql with
      | none => exact ⟨s.used, .inl rfl, by simp [send, exec_bind, h, hfate, hserve]⟩
      | some t => exact ⟨t, .inr rfl, by simp [send, exec_bind, h, hfate, hserve]⟩

/-- A statement that returned was served. -/
theorem of_send {t : State δ} (h : exec (send sql) s = (.ok (), t)) :
    s.link = .usable ∧ s.used.serve sql = some t := by
  by_cases hlink : s.link = .usable
  · rcases send_usable sql hlink with ⟨u, hserve, hrun⟩ | hrun | ⟨u, -, hrun⟩
    · rw [hrun] at h
      cases h
      exact ⟨hlink, hserve⟩
    · rw [hrun] at h
      cases h
    · rw [hrun] at h
      cases h
  · rw [send_unusable hlink] at h
    cases h

/-- What a statement leaves true, whatever its fate. -/
theorem send_keeps {P : State δ → Prop} (hused : ∀ s, P s → P s.used)
    (hserve : ∀ s t, P s → s.link = .usable → s.serve sql = some t → P t)
    (hrefused : ∀ s, P s → P (s.refuse sql)) (hlost : ∀ s, P s → P s.lose) :
    Keeps P (send sql) := by
  intro s hs
  by_cases hlink : s.link = .usable
  · have hnext := hused s hs
    rcases send_usable sql hlink with ⟨t, hsome, hrun⟩ | hrun | ⟨t, ht, hrun⟩ <;> rw [hrun]
    · exact hserve _ t hnext hlink hsome
    · exact hrefused _ hnext
    · rcases ht with rfl | hsome
      · exact hlost _ hnext
      · exact hlost t (hserve _ t hnext hlink hsome)
  · rw [send_unusable hlink]
    exact hs

/-! ### The members of `Boundaries` -/

/-- What survives the session's own bookkeeping, and every statement but a commit. -/
structure Steady (P : State δ → Prop) : Prop where
  boundaries : ∀ f, Keeps P (modifyBoundaries f)
  sends : ∀ st, st ≠ .commit → Keeps P (send (.statement st))
  reads : Keeps P (send (.data id))
  checks : ∀ failure, Keeps P (check failure)

theorem keeps_inTransaction (P : State δ → Prop) : Keeps P inTransaction := by
  intro s hs
  unfold inTransaction
  simp only [exec_bind, exec_get]
  split <;> exact hs

theorem keeps_inFailedTransaction (P : State δ → Prop) : Keeps P inFailedTransaction := by
  intro s hs
  unfold inFailedTransaction
  simp only [exec_bind, exec_get]
  split <;> exact hs

theorem keeps_mayCommit (P : State δ → Prop) (b : Boundaries) : Keeps P (mayCommit b) := by
  unfold mayCommit
  refine .ite (.throw _) (.bind (keeps_inFailedTransaction P) fun failed => .ite (.throw _) ?_)
  split
  · exact .throw _
  · exact .pure _

namespace Steady
variable {P : State δ → Prop} (h : Steady P)
include h

theorem openBoundary : Keeps P (openBoundary : Run δ Nat) := by
  unfold Transaction.openBoundary
  refine .bind .get fun s => ?_
  dsimp only
  split
  · exact .throw _
  · refine .bind (h.boundaries _) fun _ => .bind (keeps_inTransaction P) fun b => ?_
    have hrest := fun name next => Keeps.bind (h.sends (.savepoint name) (by simp)) fun _ =>
      Keeps.bind (h.boundaries fun b => {b with names := b.names ++ [next]}) fun _ =>
        Keeps.bind Keeps.get fun s => Keeps.pure s.depth
    split
    · exact .bind (h.sends .begin (by simp)) fun _ => hrest _ _
    · exact hrest _ _

theorem rollback (depth : Nat) : Keeps P (rollback depth) := by
  unfold Transaction.rollback
  split
  · exact .pure _
  · refine .bind .get fun s => ?_
    split
    · exact .bind (h.sends _ (by simp)) fun _ => .bind (h.sends _ (by simp)) fun _ => h.boundaries _
    · exact .pure _

theorem release (depth : Nat) : Keeps P (release depth) := by
  unfold Transaction.release
  split
  · exact .pure _
  · refine .bind .get fun s => ?_
    split
    · refine .bind (.tryCatch (h.sends _ (by simp)) fun _ => ?_) fun _ => h.boundaries _
      exact .bind (h.rollback depth) fun _ => .throw _
    · exact .pure _

theorem endScope (kept : Bool) (depth : Nat) : Keeps P (endScope kept depth) := by
  unfold Command.endScope
  exact .ite (h.release depth) (h.rollback depth)

theorem write : Keeps P (write : Run δ Unit) := by
  unfold Transaction.write
  refine .bind (keeps_inTransaction P) fun b => ?_
  split
  · exact .bind (h.sends .begin (by simp)) fun _ => h.boundaries _
  · exact h.boundaries _

theorem reopen (renewed : List Boundary) : Keeps P (reopen renewed) := by
  induction renewed with
  | nil => exact .pure _
  | cons boundary rest ih => exact .bind (h.sends _ (by simp)) fun _ => .bind (h.boundaries _) fun _ => ih

theorem releaseAbove (floor : Nat) : Keeps P (releaseAbove floor) := by
  unfold Transaction.releaseAbove
  refine .bind .get fun s => ?_
  split
  · exact .bind (h.sends _ (by simp)) fun _ => h.boundaries _
  · exact .pure _

theorem lockCommandCommit : Keeps P (lockCommandCommit : Run δ Unit) := by
  unfold Command.lockCommandCommit
  refine .bind .get fun s => ?_
  have hrest := Keeps.bind h.reads fun _ => Keeps.bind (h.checks .denied) fun _ =>
    Keeps.bind (h.checks .denied) fun _ => Keeps.bind h.reads fun _ => h.checks .denied
  split
  · refine .bind (h.checks _) fun _ => .bind (keeps_inTransaction P) fun b => ?_
    split
    · exact .bind (.throw _) fun _ => hrest
    · exact hrest
  · exact .pure _

/-- A commit under a floor. -/
theorem commitFloor {floor : Nat} (hfloor : floor ≠ 0) (renewed : List Boundary) :
    Keeps P (commitKept floor renewed) := by
  unfold commitKept
  rw [if_neg hfloor]
  exact .bind (h.releaseAbove floor) fun _ => .bind (h.reopen renewed) fun _ => h.boundaries _

theorem endBlock (hcommit : Keeps P (send (.statement .commit))) : Keeps P (endBlock : Run δ Unit) := by
  unfold Transaction.endBlock
  refine .bind (keeps_inTransaction P) fun b => ?_
  split
  · exact .bind hcommit fun _ => h.boundaries _
  · exact .pure _

theorem commitBlock (hcommit : Keeps P (send (.statement .commit))) (renewed : List Boundary) :
    Keeps P (commitBlock renewed) := by
  unfold Transaction.commitBlock
  refine .bind (h.endBlock hcommit) fun _ => .bind (h.boundaries _) fun _ => ?_
  exact .ite (h.sends .begin (by simp)) (.pure _)

theorem commitKept (hcommit : Keeps P (send (.statement .commit))) (floor : Nat) (renewed : List Boundary) :
    Keeps P (commitKept floor renewed) := by
  unfold Transaction.commitKept
  have hrest := Keeps.bind (h.reopen renewed) fun _ => h.boundaries fun b => {b with writing := false}
  split
  · exact .bind (h.commitBlock hcommit renewed) fun _ => hrest
  · exact .bind (h.releaseAbove floor) fun _ => hrest

theorem forget : Keeps P (forget : Run δ Unit) := by
  unfold Transaction.forget
  refine .bind (keeps_inTransaction P) fun b => ?_
  exact .ite (h.boundaries _) (.pure _)

theorem commit (hcommit : Keeps P (send (.statement .commit))) : Keeps P (commit : Run δ Unit) := by
  unfold Transaction.commit
  refine .bind h.lockCommandCommit fun _ => .bind .get fun s => .bind (keeps_mayCommit P _) fun _ => ?_
  refine .bind (h.boundaries _) fun _ => .tryCatch (h.commitKept hcommit _ _) fun failure => ?_
  exact .bind h.forget fun _ => .throw _

end Steady

/-! ### What is steady -/

theorem Steady.and {P Q : State δ → Prop} (hp : Steady P) (hq : Steady Q) : Steady fun s => P s ∧ Q s where
  boundaries f := (hp.boundaries f).and (hq.boundaries f)
  sends st hst := (hp.sends st hst).and (hq.sends st hst)
  reads := hp.reads.and hq.reads
  checks failure := (hp.checks failure).and (hq.checks failure)

theorem keeps_check {P : State δ → Prop} (h : ∀ s refusals, P s → P {s with refusals}) (failure : Failure) :
    Keeps P (check failure) := by
  intro s hs
  have hnext := h s s.refusals.tail hs
  unfold check
  simp only [exec_bind, exec_get, exec_set, exec_ite]
  split <;> exact hnext

/-- The connection and the server agree on what is pending and what is durable: `start` at first, and then what was
committed last. -/
structure Sound (start : δ) (s : State δ) : Prop where
  outside : s.server.inTransaction = false → s.server.failed = false ∧ s.server.data = s.server.committed
  logged : s.server.committed = s.commits.headD start
  linked : s.link ≠ .usable → s.server.inTransaction = false

variable {start : δ}

theorem sound_dropped (h : Sound start s) (link : Link) : Sound start {s with link, server := dropped s.server} :=
  ⟨fun _ => ⟨rfl, rfl⟩, h.logged, fun _ => rfl⟩

/-- A statement that the server executes; one that changes data needs a block. -/
theorem sound_serve {t : State δ} (h : Sound start s) (hlink : s.link = .usable)
    (hdata : ∀ f, sql = .data f → f = id ∨ s.server.inTransaction = true) (hserve : s.serve sql = some t) :
    Sound start t := by
  obtain ⟨server, hserver, rfl⟩ := Option.map_eq_some_iff.mp hserve
  have hlinked : ∀ server : Server Bytes δ, s.link ≠ .usable → server.inTransaction = false :=
    fun _ hne => absurd hlink hne
  cases sql with
  | rollback =>
    cases hserver
    exact ⟨fun _ => ⟨rfl, rfl⟩, h.logged, hlinked _⟩
  | data f =>
    obtain ⟨hfailed, heq⟩ := Option.ite_none_left_eq_some.mp hserver
    cases heq
    have hblock := hdata f rfl
    refine ⟨?_, ?_, hlinked _⟩
    · intro houtside
      have hnone : s.server.inTransaction = false := houtside
      have hsound : s.server.failed = false := by simpa using hfailed
      exact ⟨hsound, by simp [Savepoints.write, hnone]⟩
    · have hcommitted : (Savepoints.write f s.server).committed = s.server.committed := by
        cases hin : s.server.inTransaction with
        | true => simp [Savepoints.write, hin]
        | false =>
          obtain rfl := hblock.resolve_right (by simp [hin])
          simpa [Savepoints.write, hin] using (h.outside hin).2
      exact hcommitted.trans h.logged
  | statement st =>
    cases st with
    | begin =>
      obtain ⟨-, heq⟩ := Option.ite_none_left_eq_some.mp hserver
      cases heq
      refine ⟨fun hnone => ?_, h.logged, hlinked _⟩
      cases hnone
    | commit =>
      cases hserver
      exact ⟨fun _ => ⟨rfl, rfl⟩, rfl, hlinked _⟩
    | savepoint name =>
      obtain ⟨hin, heq⟩ := Option.ite_none_right_eq_some.mp hserver
      cases heq
      refine ⟨fun hnone => ?_, h.logged, hlinked _⟩
      have hblock : s.server.inTransaction = true := (Bool.and_eq_true_iff.mp hin).1
      cases hblock.symm.trans hnone
    | rollbackTo name =>
      obtain ⟨hin, heq⟩ := Option.ite_none_right_eq_some.mp hserver
      obtain ⟨⟨before, held⟩, -, rfl⟩ := Option.map_eq_some_iff.mp heq
      refine ⟨fun hnone => ?_, h.logged, hlinked _⟩
      cases hin.symm.trans hnone
    | release name =>
      obtain ⟨hin, heq⟩ := Option.ite_none_right_eq_some.mp hserver
      obtain ⟨⟨before, held⟩, -, rfl⟩ := Option.map_eq_some_iff.mp heq
      refine ⟨fun hnone => ?_, h.logged, hlinked _⟩
      have hblock : s.server.inTransaction = true := (Bool.and_eq_true_iff.mp hin).1
      cases hblock.symm.trans hnone

theorem sound_refuse (h : Sound start s) (sql : Sql δ) : Sound start (s.refuse sql) := by
  have hrefuse : Sound start {s with server := Savepoints.refuse s.server} := by
    refine ⟨fun hnone => ⟨hnone, (h.outside hnone).2⟩, h.logged, h.linked⟩
  unfold State.refuse Sql.refused
  split
  · exact sound_dropped h s.link
  · exact hrefuse

theorem sound_send (hdata : ∀ f, sql = .data f → f = id) : Keeps (Sound start) (send sql) := by
  refine send_keeps ?_ ?_ ?_ ?_
  · exact fun s h => ⟨h.outside, h.logged, h.linked⟩
  · exact fun s t h hlink => sound_serve h hlink fun f hf => .inl (hdata f hf)
  · exact fun s h => sound_refuse h sql
  · exact fun s h => sound_dropped h .broken

theorem steady_sound (start : δ) : Steady (Sound start) where
  boundaries _ := .modify fun _ h => ⟨h.outside, h.logged, h.linked⟩
  sends st _ := sound_send fun f hf => by cases hf
  reads := sound_send fun f hf => by cases hf; rfl
  checks := keeps_check fun _ _ h => ⟨h.outside, h.logged, h.linked⟩

/-- Statements other than a commit leave the log of commits as it is. -/
theorem log_send (hlog : ∀ server, sql.log server = []) (log : List δ) :
    Keeps (fun s : State δ => s.commits = log) (send sql) := by
  refine send_keeps (fun s h => h) ?_ (fun s h => h) fun s h => h
  intro s t h _ hserve
  obtain ⟨server, -, rfl⟩ := Option.map_eq_some_iff.mp hserve
  show sql.log server ++ s.commits = log
  rw [hlog, h]
  rfl

theorem steady_log (log : List δ) : Steady fun s : State δ => s.commits = log where
  boundaries _ := .modify fun _ h => h
  sends st hst := by
    apply log_send
    intro server
    cases st with
    | commit => exact absurd rfl hst
    | _ => rfl
  reads := log_send (fun _ => rfl) log
  checks := keeps_check fun _ _ h => h

/-- A command stays active, and its connection is not closed, whatever is sent. -/
def Live (s : State δ) : Prop := s.attached = true ∧ s.link ≠ .closed

theorem live_send (sql : Sql δ) : Keeps Live (send sql) := by
  refine send_keeps (fun s h => h) ?_ (fun s h => h) fun s h => ⟨h.1, by simp [State.lose]⟩
  intro s t h _ hserve
  obtain ⟨server, -, rfl⟩ := Option.map_eq_some_iff.mp hserve
  exact h

theorem steady_live : Steady (Live : State δ → Prop) where
  boundaries _ := .modify fun _ h => h
  sends _ _ := live_send _
  reads := live_send _
  checks := keeps_check fun _ _ h => h

end Agiru.Command
