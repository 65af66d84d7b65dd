import Agiru.Library.Undo
import Mathlib.Algebra.Group.Int.Defs
import Mathlib.Algebra.Group.Nat.Defs
import Mathlib.Data.List.FinRange
import Mathlib.Data.List.MinMax

/-! Row versions: a sequence, and a fence for every transaction that has drawn from it.

Each statement of the database functions `next_rowversion_v1` and `minimum_rowversion_v1`
is a step of its own, and so is each statement of a transaction around them; any number
of sessions step in any order. `handed`, `answers` and `marks` are what has happened:
no step reads them. -/
namespace Agiru.RowVersion
open Undo

/-- `MAXVALUE`. -/
abbrev maxValue : Nat := 9223372036854775807

/-! ### Advisory locks as `pg_locks` shows them -/

structure LockRow where
  classid : Nat
  objid : Nat
  /-- 1 is a lock of one `bigint` key, 2 one of two `integer` keys. -/
  objsubid : Nat
  /-- Granted in `ExclusiveLock` mode, in the current database. -/
  exclusive : Bool
  deriving DecidableEq

/-- The row of an exclusive lock of a `bigint` key, in two half-words. -/
def rowOf (key : Int) : LockRow :=
  let word := (key % 2 ^ 64).toNat
  ⟨word / 2 ^ 32, word % 2 ^ 32, 1, true⟩

/-- The row of the publication lock, of two keys. -/
def globalRow : LockRow := ⟨0x41475256, 1, 2, true⟩

/-- A 64-bit word as a `bigint`. -/
def toBigint (word : Nat) : Int := if word < 2 ^ 63 then word else (word : Int) - 2 ^ 64

/-- The rows that `minimum_rowversion_v1` selects. -/
def LockRow.isFence (row : LockRow) : Bool :=
  row.objsubid = 1 && row.exclusive && 2147483648 ≤ row.classid

/-- `-((classid::bigint << 32) | objid::bigint)`. -/
def LockRow.value (row : LockRow) : Int := -(toBigint ((row.classid <<< 32 ||| row.objid) % 2 ^ 64))

/-- `min(...)`, which is null of no row. -/
def minFence (rows : List LockRow) : Option Int := ((rows.filter LockRow.isFence).map LockRow.value).min?

/-! ### Sessions -/

/-- What a transaction does: the locks it takes until its end, the fence setting with its
transaction tag, and the versions it was handed. -/
inductive Effect
  | lock (key : Int)
  | setting (tag value : Nat)
  | version (value : Nat)
  deriving DecidableEq

/-- The next statement of a session. `before` is what calls of the minimum had answered when
this one began. -/
inductive Pc
  | idle
  | nextFast
  | nextLock
  | nextValue
  | nextFence (value : Nat)
  | nextSet (value : Nat)
  | nextUnlock (value : Nat)
  | nextReturn (value : Nat)
  | minLock (before : List Int)
  | minRead (before : List Int)
  | minLast (before : List Int)
  | minUnlock (before : List Int) (value : Int)
  | minReturn (before : List Int) (value : Int)

structure Session where
  /-- The transaction identifier, inside a transaction. -/
  xid : Option Nat := none
  log : Log Effect := []
  /-- A statement has failed, and only a rollback goes on. -/
  failed : Bool := false
  pc : Pc := .idle

/-- A version that a call returned, and what calls of the minimum had answered by then. -/
structure Handed where
  xid : Nat
  version : Nat
  before : List Int

/-- An answer of the minimum, and what had been answered when it was asked for. -/
structure Answer where
  value : Int
  before : List Int

structure State (n : Nat) where
  /-- The last value of the sequence, zero before the first. -/
  last : Nat := 0
  /-- Who holds the publication lock, and how often. -/
  global : Option (Fin n × Nat) := none
  nextXid : Nat := 1
  sessions : Fin n → Session := fun _ => {}
  /-- The other advisory locks of the database. -/
  foreign : List LockRow := []
  handed : List Handed := []
  answers : List Answer := []
  /-- What calls of the minimum have found, the newest first. -/
  marks : List Int := []

namespace Session

/-- The fence setting that is in force. -/
def fence (session : Session) : Option (Nat × Nat) :=
  (done session.log).findSome? fun effect =>
    match effect with
    | .setting tag value => some (tag, value)
    | _ => none

/-- The locks of the transaction. -/
def locks (session : Session) : List Int :=
  (done session.log).filterMap fun effect =>
    match effect with
    | .lock key => some key
    | _ => none

/-- The versions that the transaction has been handed and has not rolled back. -/
def versions (session : Session) : List Nat :=
  (done session.log).filterMap fun effect =>
    match effect with
    | .version value => some value
    | _ => none

end Session

variable {n : Nat}

namespace State

def put (s : State n) (i : Fin n) (session : Session) : State n :=
  {s with sessions := Function.update s.sessions i session}

/-- `pg_locks`. -/
def lockTable (s : State n) : List LockRow :=
  s.foreign ++ (if s.global.isSome then [globalRow] else []) ++
    (List.finRange n).flatMap fun i => (s.sessions i).locks.map rowOf

/-- The publication lock taken, if no other session holds it. -/
def acquire (s : State n) (i : Fin n) : Option (Option (Fin n × Nat)) :=
  match s.global with
  | none => some (some (i, 1))
  | some (holder, count) => if holder = i then some (some (i, count + 1)) else none

/-- The publication lock released once, if the session holds it. -/
def unlocked (s : State n) (i : Fin n) : Option (Fin n × Nat) :=
  match s.global with
  | none => none
  | some (holder, count) =>
    if holder = i then if count = 1 then none else some (i, count - 1) else some (holder, count)

end State

/-- What had been answered. -/
def State.answered (s : State n) : List Int := s.answers.map Answer.value

/-- One statement of a session. -/
inductive Step (s : State n) : State n → Prop
  /-- `BEGIN`. -/
  | begin (i : Fin n) : (s.sessions i).xid = none → (s.sessions i).pc = .idle →
    Step s {s.put i {xid := some s.nextXid} with nextXid := s.nextXid + 1}
  | savepoint (i : Fin n) (xid : Nat) : (s.sessions i).xid = some xid → (s.sessions i).pc = .idle →
    (s.sessions i).failed = false →
    Step s (s.put i {s.sessions i with log := .savepoint :: (s.sessions i).log})
  /-- `ROLLBACK TO` the newest savepoint, which stays. -/
  | rollbackTo (i : Fin n) : (s.sessions i).pc = .idle → .savepoint ∈ (s.sessions i).log →
    Step s (s.put i {s.sessions i with
      log := .savepoint :: undo (s.sessions i).log
      failed := false})
  /-- `RELEASE` of the newest savepoint. -/
  | release (i : Fin n) : (s.sessions i).pc = .idle → (s.sessions i).failed = false →
    Step s (s.put i {s.sessions i with log := release (s.sessions i).log})
  /-- `COMMIT` or `ROLLBACK`. -/
  | finish (i : Fin n) : (s.sessions i).pc = .idle → Step s (s.put i {})
  /-- The connection ends, wherever it is; its locks end with it. -/
  | disconnect (i : Fin n) :
    Step s {s.put i {} with global := s.global.filter fun held => held.1 ≠ i}
  /-- A call of `next_rowversion_v1` under a fence of this transaction. -/
  | nextFenced (i : Fin n) (xid value : Nat) : (s.sessions i).xid = some xid →
    (s.sessions i).pc = .idle → (s.sessions i).failed = false →
    (s.sessions i).fence = some (xid, value) →
    Step s (s.put i {s.sessions i with pc := .nextFast})
  /-- A call without one, which begins its block. -/
  | nextUnfenced (i : Fin n) (xid : Nat) : (s.sessions i).xid = some xid →
    (s.sessions i).pc = .idle → (s.sessions i).failed = false →
    (∀ value, (s.sessions i).fence ≠ some (xid, value)) →
    Step s (s.put i {s.sessions i with
      log := .savepoint :: (s.sessions i).log
      pc := .nextLock})
  /-- `RETURN nextval(...)`. -/
  | nextFast (i : Fin n) (xid : Nat) : (s.sessions i).xid = some xid →
    (s.sessions i).pc = .nextFast → s.last < maxValue →
    Step s {s.put i {s.sessions i with
        log := .effect (.version (s.last + 1)) :: (s.sessions i).log
        pc := .idle} with
      last := s.last + 1
      handed := ⟨xid, s.last + 1, s.answered⟩ :: s.handed}
  | nextLock (i : Fin n) (global : Option (Fin n × Nat)) : (s.sessions i).pc = .nextLock →
    s.acquire i = some global →
    Step s {s.put i {s.sessions i with pc := .nextValue} with global}
  | nextValue (i : Fin n) : (s.sessions i).pc = .nextValue → s.last < maxValue →
    Step s {s.put i {s.sessions i with pc := .nextFence (s.last + 1)} with last := s.last + 1}
  /-- `pg_advisory_xact_lock(-value)`. -/
  | nextFence (i : Fin n) (value : Nat) : (s.sessions i).pc = .nextFence value →
    (∀ j, j ≠ i → -(value : Int) ∉ (s.sessions j).locks) →
    Step s (s.put i {s.sessions i with
      log := .effect (.lock (-(value : Int))) :: (s.sessions i).log
      pc := .nextSet value})
  | nextSet (i : Fin n) (xid value : Nat) : (s.sessions i).xid = some xid →
    (s.sessions i).pc = .nextSet value →
    Step s (s.put i {s.sessions i with
      log := .effect (.setting xid value) :: (s.sessions i).log
      pc := .nextUnlock value})
  | nextUnlock (i : Fin n) (value : Nat) : (s.sessions i).pc = .nextUnlock value →
    Step s {s.put i {s.sessions i with pc := .nextReturn value} with global := s.unlocked i}
  /-- The block ends, and the value is returned. -/
  | nextReturn (i : Fin n) (xid value : Nat) : (s.sessions i).xid = some xid →
    (s.sessions i).pc = .nextReturn value →
    Step s {s.put i {s.sessions i with
        log := .effect (.version value) :: release (s.sessions i).log
        pc := .idle} with
      handed := ⟨xid, value, s.answered⟩ :: s.handed}
  /-- A call of `minimum_rowversion_v1`. -/
  | minCall (i : Fin n) (xid : Nat) : (s.sessions i).xid = some xid → (s.sessions i).pc = .idle →
    (s.sessions i).failed = false →
    Step s (s.put i {s.sessions i with pc := .minLock s.answered})
  | minLock (i : Fin n) (before : List Int) (global : Option (Fin n × Nat)) :
    (s.sessions i).pc = .minLock before → s.acquire i = some global →
    Step s {s.put i {s.sessions i with pc := .minRead before} with global}
  /-- `SELECT min(...) INTO value FROM pg_locks`. -/
  | minSome (i : Fin n) (before : List Int) (value : Int) : (s.sessions i).pc = .minRead before →
    minFence s.lockTable = some value →
    Step s {s.put i {s.sessions i with pc := .minUnlock before value} with marks := value :: s.marks}
  | minNull (i : Fin n) (before : List Int) : (s.sessions i).pc = .minRead before →
    minFence s.lockTable = none →
    Step s (s.put i {s.sessions i with pc := .minLast before})
  /-- `value := last_rowversion_v1() + 1`. -/
  | minLast (i : Fin n) (before : List Int) : (s.sessions i).pc = .minLast before →
    s.last < maxValue →
    Step s {s.put i {s.sessions i with pc := .minUnlock before (s.last + 1)} with
      marks := (s.last + 1) :: s.marks}
  | minUnlock (i : Fin n) (before : List Int) (value : Int) :
    (s.sessions i).pc = .minUnlock before value →
    Step s {s.put i {s.sessions i with pc := .minReturn before value} with global := s.unlocked i}
  | minReturn (i : Fin n) (before : List Int) (value : Int) :
    (s.sessions i).pc = .minReturn before value →
    Step s {s.put i {s.sessions i with pc := .idle} with answers := ⟨value, before⟩ :: s.answers}
  /-- A statement of a call fails: its block is undone, and its handler releases the lock,
  unless it fails too. -/
  | nextFails (i : Fin n) (global : Option (Fin n × Nat)) :
    (∃ value, (s.sessions i).pc ∈ [.nextLock, .nextValue, .nextFence value, .nextSet value,
      .nextUnlock value, .nextReturn value]) → global ∈ [s.global, s.unlocked i] →
    Step s {s.put i {s.sessions i with
        log := undo (s.sessions i).log
        failed := true
        pc := .idle} with global}
  | minFails (i : Fin n) (global : Option (Fin n × Nat)) :
    (∃ before value, (s.sessions i).pc ∈ [.nextFast, .minLock before, .minRead before, .minLast before,
      .minUnlock before value, .minReturn before value]) → global ∈ [s.global, s.unlocked i] →
    Step s {s.put i {s.sessions i with
        failed := true
        pc := .idle} with global}
  /-- Others take and release advisory locks that are no fences. -/
  | foreign (rows : List LockRow) : (∀ row ∈ rows, row.isFence = false) →
    Step s {s with foreign := rows}

/-- The runs of any number of sessions on a database that has been provisioned. -/
abbrev Reached (s : State n) : Prop :=
  Reachable (fun first : State n => ∃ last ≤ maxValue, first = {last}) Step s

end Agiru.RowVersion
