import Agiru.Transaction.Boundaries
import Agiru.Transaction.Nest

/-! The boundaries of a session and its server's savepoints.

`Linked` says that they agree. In a linked session every member of `Boundaries` goes
through, and the equations here say what each leaves. -/
namespace Agiru.Transaction
open Savepoints (Statement Server)
open Procedure

variable {δ : Type}
variable {s : Session δ}

/-- One operation of the program on its session. A write is announced to the
boundaries before its statement runs. -/
def perform : Op δ → Run δ Unit
  | .opens => do
    let _ ← openBoundary
  | .write f => do
    write
    modify fun s => {s with server := Savepoints.write f s.server}
  | .mark table consistent => markConsistent table consistent
  | .commit => commit
  | .release depth => release depth
  | .rollback depth => rollback depth
  | .floor depth => do
    let _ ← setIsolationFloor depth

/-- The session after an operation, whichever way it ends. -/
def step (op : Op δ) (s : Session δ) : Session δ := (exec (perform op) s).2

def run (s : Session δ) : List (Op δ) → Session δ
  | [] => s
  | op :: rest => run (step op s) rest

/-- A session that has done nothing. -/
def initial (data : δ) : Session δ := ⟨{}, {data := data, committed := data}, []⟩

/-- The boundaries and the server agree: the savepoints are the boundaries, in
order, under distinct names already issued, and the block is open and sound.
Outside a block nothing is left to commit. -/
structure Linked (s : Session δ) : Prop where
  names : s.server.savepoints.map Prod.fst = s.boundaries.names.map Boundary.name
  distinct : (s.boundaries.names.map Boundary.name).Nodup
  issued : ∀ name ∈ s.boundaries.names.map Boundary.name,
    ∃ k, k ≤ s.boundaries.issued ∧ name = nextName k
  inBlock : s.boundaries.names ≠ [] → s.server.inTransaction = true
  sound : s.server.failed = false
  settled : s.server.inTransaction = false → s.server.committed = s.server.data

theorem nextName_injective {m n : Nat} (h : nextName m = nextName n) : m = n :=
  Bytes.natText_injective (List.append_cancel_left h)

theorem Linked.length (h : Linked s) : s.server.savepoints.length = s.boundaries.names.length := by
  simpa using congrArg List.length h.names

/-- A name not yet issued is no boundary's. -/
theorem Linked.fresh (h : Linked s) {k : Nat} (hk : s.boundaries.issued < k) :
    nextName k ∉ s.boundaries.names.map Boundary.name := by
  intro hmem
  obtain ⟨j, hj, he⟩ := h.issued _ hmem
  have := nextName_injective he
  omega

/-- A boundary's name finds its own savepoint. -/
theorem Linked.named_name (h : Linked s) {i : Nat}
    (hi : i < s.boundaries.names.length) (hs : i < s.server.savepoints.length) :
    Savepoints.named s.boundaries.names[i].name s.server.savepoints =
      some (s.server.savepoints.take i, s.server.savepoints[i].2) := by
  have hname : s.server.savepoints[i].1 = s.boundaries.names[i].name := by
    have := congrArg (fun names => names[i]?) h.names
    simpa [List.getElem?_eq_getElem hi, List.getElem?_eq_getElem hs] using this
  rw [← hname]
  exact Savepoints.named_at (h.names ▸ h.distinct) hs

/-! ### Running the members of `Boundaries` -/

/-- The boundary `Open` adds. -/
def Session.next (s : Session δ) : Boundary :=
  ⟨nextName (s.boundaries.issued + 1), s.boundaries.inconsistent, s.boundaries.writing⟩

/-- The session after `openBoundary`. -/
def Session.opened (s : Session δ) : Session δ where
  boundaries := {s.boundaries with
    issued := s.boundaries.issued + 1
    names := s.boundaries.names ++ [s.next]}
  server := {s.server with
    inTransaction := true
    savepoints := s.server.savepoints ++ [(s.next.name, s.server.data)]}
  sent := s.sent ++ (if s.server.inTransaction then [] else [.begin]) ++ [.savepoint s.next.name]

theorem exec_open (h : Linked s) (hf : s.boundaries.isolationFloor ≤ s.depth) :
    exec openBoundary s = (.ok (s.depth + 1), s.opened) := by
  have hfloor : ¬ s.boundaries.isolationFloor > s.boundaries.names.length := Nat.not_lt.mpr hf
  cases hb : s.server.inTransaction <;>
    simp [openBoundary, exec_bind, hfloor, hb, send, Savepoints.execute, h.sound, Session.next,
      Session.depth, Session.opened]

/-- A session that lost its floor opens nothing. -/
theorem exec_open_lost (hlost : ¬ s.boundaries.isolationFloor ≤ s.depth) :
    exec openBoundary s = (.error .lostIsolation, s) := by
  have hfloor : s.boundaries.isolationFloor > s.boundaries.names.length := Nat.lt_of_not_le hlost
  simp [openBoundary, exec_bind, hfloor]

/-- The session after `rollback` of the boundary at an index. -/
def Session.rolledBack (s : Session δ) (i : Nat) (boundary : Boundary) (kept : δ) :
    Session δ where
  boundaries := {s.boundaries with
    writing := boundary.writingBefore
    names := s.boundaries.names.take i
    inconsistent := boundary.inconsistentBefore
    cursorEpoch := s.boundaries.cursorEpoch + 1}
  server := {s.server with data := kept, savepoints := s.server.savepoints.take i}
  sent := s.sent ++ [.rollbackTo boundary.name, .release boundary.name]

theorem exec_rollback (h : Linked s) {i : Nat}
    (hi : i < s.boundaries.names.length) (hs : i < s.server.savepoints.length) :
    exec (rollback (i + 1)) s =
      (.ok (), s.rolledBack i s.boundaries.names[i] s.server.savepoints[i].2) := by
  have hfound := h.named_name hi hs
  have hblock : s.server.inTransaction = true := h.inBlock (List.ne_nil_of_length_pos (by omega))
  have hkept : Savepoints.named s.boundaries.names[i].name
      (s.server.savepoints.take i ++ [(s.boundaries.names[i].name, s.server.savepoints[i].2)]) =
      some (s.server.savepoints.take i, s.server.savepoints[i].2) :=
    Savepoints.named_append (by simp)
  simp [rollback, exec_bind, List.getElem?_eq_getElem hi, send, Savepoints.execute, hblock, hfound,
    hkept, h.sound, Session.rolledBack]

/-- The session after `release` of the boundary at an index. -/
def Session.released (s : Session δ) (i : Nat) (boundary : Boundary) : Session δ where
  boundaries := {s.boundaries with names := s.boundaries.names.take i}
  server := {s.server with savepoints := s.server.savepoints.take i}
  sent := s.sent ++ [.release boundary.name]

theorem exec_release (h : Linked s) {i : Nat}
    (hi : i < s.boundaries.names.length) (hs : i < s.server.savepoints.length) :
    exec (release (i + 1)) s = (.ok (), s.released i s.boundaries.names[i]) := by
  have hfound := h.named_name hi hs
  have hblock : s.server.inTransaction = true := h.inBlock (List.ne_nil_of_length_pos (by omega))
  simp [release, exec_bind, exec_tryCatch, List.getElem?_eq_getElem hi, send, Savepoints.execute,
    hblock, hfound, h.sound, Session.released]

/-- The session after a write. -/
def Session.written (s : Session δ) (f : δ → δ) : Session δ where
  boundaries := {s.boundaries with writing := true}
  server := {s.server with data := f s.server.data, inTransaction := true}
  sent := s.sent ++ if s.server.inTransaction then [] else [.begin]

theorem exec_write (h : Linked s) (f : δ → δ) : exec (perform (.write f)) s = (.ok (), s.written f) := by
  cases hb : s.server.inTransaction <;>
    simp [perform, write, exec_bind, hb, h.sound, send, Savepoints.execute, Savepoints.write, Session.written]

/-! ### Committing -/

/-- The session after `reopen`. -/
def Session.reopened (s : Session δ) (renewed : List Boundary) : Session δ where
  boundaries := {s.boundaries with names := s.boundaries.names ++ renewed}
  server := {s.server with
    savepoints := s.server.savepoints ++ renewed.map fun b => (b.name, s.server.data)}
  sent := s.sent ++ renewed.map fun b => .savepoint b.name

theorem exec_reopen (renewed : List Boundary) (s : Session δ) (hf : s.server.failed = false)
    (hb : renewed ≠ [] → s.server.inTransaction = true) :
    exec (reopen renewed) s = (.ok (), s.reopened renewed) := by
  induction renewed generalizing s with
  | nil => simp [reopen, Session.reopened]
  | cons boundary rest ih =>
    have hblock := hb (List.cons_ne_nil _ _)
    have hone : exec (reopen (boundary :: rest)) s = exec (reopen rest) (s.reopened [boundary]) := by
      simp [reopen, exec_bind, send, Savepoints.execute, hblock, hf, Session.reopened]
    rw [hone, ih (s.reopened [boundary]) hf fun _ => hblock]
    simp [Session.reopened]

/-- The session after a commit without a floor, which ends the block and opens every
boundary again. -/
def Session.ended (s : Session δ) (renewed : List Boundary) : Session δ where
  boundaries := {s.boundaries with
    names := renewed
    writing := false
    cursorEpoch := s.boundaries.cursorEpoch + if s.server.inTransaction then 1 else 0}
  server := ⟨s.server.data, s.server.data, !renewed.isEmpty, false,
    renewed.map fun b => (b.name, s.server.data)⟩
  sent := s.sent ++ (if s.server.inTransaction then [.commit] else []) ++
    (if renewed.isEmpty then [] else [.begin]) ++ renewed.map fun b => .savepoint b.name

theorem exec_commitKept_floorless (h : Linked s) {renewed : List Boundary}
    (hfloor : s.boundaries.isolationFloor = 0) (hr : renewed ≠ [] → s.boundaries.names ≠ []) :
    exec (commitKept 0 renewed) s = (.ok (), s.ended renewed) := by
  cases hb : s.server.inTransaction with
  | false =>
    have hnone : s.boundaries.names = [] := by
      by_contra hne
      simp [h.inBlock hne] at hb
    have hempty : renewed = [] := by
      by_contra hne
      exact hr hne hnone
    have hstack : s.server.savepoints = [] := by
      simpa [hnone] using h.names
    obtain ⟨b, ⟨data, committed, block, failed, stack⟩, sent⟩ := s
    replace hfloor : b.isolationFloor = 0 := hfloor
    obtain rfl : block = false := hb
    obtain rfl : failed = false := h.sound
    obtain rfl : committed = data := h.settled rfl
    obtain rfl : stack = [] := hstack
    simp [commitKept, commitBlock, endBlock, exec_bind, hempty, reopen, Session.ended]
  | true =>
    cases hre : renewed.isEmpty with
    | true =>
      obtain rfl := List.isEmpty_iff.mp hre
      simp [commitKept, commitBlock, endBlock, exec_bind, hb, send, Savepoints.execute, h.sound, reopen, Session.ended]
    | false =>
      simp [commitKept, commitBlock, endBlock, exec_bind, hb, send, Savepoints.execute, h.sound, hre,
        exec_reopen, Session.reopened, Session.ended]

/-- The session after a commit under a floor, which releases the boundaries above it
and opens them again. -/
def Session.kept (s : Session δ) (renewed : List Boundary) : Session δ where
  boundaries := {s.boundaries with
    names := s.boundaries.names.take s.boundaries.isolationFloor ++ renewed
    writing := false}
  server := {s.server with
    savepoints := s.server.savepoints.take s.boundaries.isolationFloor ++
      renewed.map fun b => (b.name, s.server.data)}
  sent := s.sent ++
    ((s.boundaries.names[s.boundaries.isolationFloor]?.map fun b => .release b.name).toList ++
      renewed.map fun b => .savepoint b.name)

theorem exec_commitKept_floor (h : Linked s) {renewed : List Boundary}
    (hfloor : s.boundaries.isolationFloor ≠ 0) (hle : s.boundaries.isolationFloor ≤ s.depth) :
    exec (commitKept s.boundaries.isolationFloor renewed) s = (.ok (), s.kept renewed) := by
  have hlen : s.boundaries.isolationFloor ≤ s.boundaries.names.length := hle
  have hblock : s.server.inTransaction = true :=
    h.inBlock (List.ne_nil_of_length_pos (by omega))
  cases habove : s.boundaries.names[s.boundaries.isolationFloor]? with
  | none =>
    have hall : s.boundaries.names.length ≤ s.boundaries.isolationFloor :=
      List.getElem?_eq_none_iff.mp habove
    have hstack : s.server.savepoints.length ≤ s.boundaries.isolationFloor := h.length ▸ hall
    simp [commitKept, releaseAbove, exec_bind, hfloor, exec_reopen, h.sound, hblock, Session.reopened,
      List.take_of_length_le, hall, hstack, Session.kept]
  | some above =>
    obtain ⟨hi, rfl⟩ := List.getElem?_eq_some_iff.mp habove
    have hfound := h.named_name hi (h.length ▸ hi)
    simp [commitKept, releaseAbove, exec_bind, hfloor, habove, exec_reopen, h.sound, hblock,
      Session.reopened, send, Savepoints.execute, hfound, Session.kept]

theorem renew_names (inconsistent : List Bytes) (issued count : Nat) :
    (renew inconsistent issued count).map Boundary.name =
      (List.range' (issued + 1) count).map nextName := by
  induction count generalizing issued with
  | zero => rfl
  | succ count ih => simp [renew, ih, List.range'_succ]

/-- The boundaries a commit opens again. -/
def Session.renewed (s : Session δ) : List Boundary :=
  renew s.boundaries.inconsistent s.boundaries.issued (s.depth - s.boundaries.isolationFloor)

/-- The session whose commit has taken its names. -/
def Session.counted (s : Session δ) : Session δ :=
  {s with boundaries := {s.boundaries with
    issued := s.boundaries.issued + (s.depth - s.boundaries.isolationFloor)}}

theorem Linked.counted (h : Linked s) : Linked s.counted where
  names := h.names
  distinct := h.distinct
  issued name hname := by
    obtain ⟨k, hk, he⟩ := h.issued name hname
    exact ⟨k, Nat.le_trans hk (Nat.le_add_right _ _), he⟩
  inBlock := h.inBlock
  sound := h.sound
  settled := h.settled

/-- The session after a commit that went through. -/
def Session.committed (s : Session δ) : Session δ :=
  if s.boundaries.isolationFloor = 0 then s.counted.ended s.renewed else s.counted.kept s.renewed

theorem exec_commit (h : Linked s)
    (hf : s.boundaries.isolationFloor ≤ s.depth) (hi : s.boundaries.inconsistent = []) :
    exec commit s = (.ok (), s.committed) := by
  have hbody : exec (commitKept s.boundaries.isolationFloor s.renewed) s.counted = (.ok (), s.committed) := by
    unfold Session.committed
    by_cases hzero : s.boundaries.isolationFloor = 0
    · rw [if_pos hzero, hzero]
      refine exec_commitKept_floorless h.counted hzero fun hne hnone => hne ?_
      have hdepth : s.depth = 0 := List.length_eq_zero_iff.mpr hnone
      simp [Session.renewed, hdepth, renew]
    · rw [if_neg hzero]
      exact exec_commitKept_floor h.counted hzero hf
  have hfloor : ¬ s.boundaries.isolationFloor > s.boundaries.names.length := Nat.not_lt.mpr hf
  have hmay : exec (mayCommit s.boundaries) s = (.ok (), s) := by
    simp [mayCommit, exec_bind, hfloor, h.sound, hi]
  unfold commit
  rw [exec_bind_ok (exec_lockCommandCommit s), exec_bind_ok (exec_get s)]
  dsimp only [boundaries_session]
  rw [exec_bind_ok hmay, exec_bind_ok (exec_modifyBoundaries s _)]
  rw [exec_tryCatch_ok]
  exact hbody

/-- A commit that is forbidden does nothing. -/
theorem exec_commit_forbidden {failure : Failure}
    (h : exec (mayCommit s.boundaries) s = (.error failure, s)) : exec commit s = (.error failure, s) := by
  simp [commit, exec_bind, h]

theorem exec_commit_refused (h : Linked s)
    (hno : s.boundaries.isolationFloor ≤ s.depth → s.boundaries.inconsistent ≠ []) :
    ∃ failure, exec commit s = (.error failure, s) := by
  by_cases hf : s.boundaries.isolationFloor ≤ s.depth
  · cases hi : s.boundaries.inconsistent with
    | nil => exact absurd hi (hno hf)
    | cons table rest =>
      have hfloor : ¬ s.boundaries.isolationFloor > s.boundaries.names.length := Nat.not_lt.mpr hf
      exact ⟨.inconsistent table, exec_commit_forbidden (by simp [mayCommit, exec_bind, hfloor, h.sound, hi])⟩
  · have hfloor : s.boundaries.isolationFloor > s.boundaries.names.length := Nat.lt_of_not_le hf
    exact ⟨.lostIsolation, exec_commit_forbidden (by simp [mayCommit, hfloor])⟩

end Agiru.Transaction
