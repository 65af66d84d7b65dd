import Agiru.Library.SortedRows
import Agiru.Library.Undo

/-! Browser sessions: `agiru_client.browser_sessions` under concurrent calls.

Each call is a transaction of its own, and its statements are steps: any number of connections
step in any order, and time passes between the steps. A statement reads the committed rows; a row
that a call has replaced is locked until the call ends, and so is the row of the user that an
admission has read. The count of `IssueBrowserSession` judges each row of its snapshot at a time of
its own. -/
namespace Agiru.BrowserSession
open Keyed Undo

/-- `clock_timestamp()` counts microseconds. -/
abbrev second : Nat := 1000000

/-- `BrowserSessionOptions`, which `ValidateBrowserSessionOptions` has accepted. -/
structure Options where
  idle : Nat
  lifetime : Nat
  sessionsPerUser : Nat
  idle_pos : 0 < idle
  idle_le : idle ≤ lifetime
  lifetime_le : lifetime ≤ 24 * 3600
  sessionsPerUser_pos : 0 < sessionsPerUser
  sessionsPerUser_le : sessionsPerUser ≤ 1024

structure Credential where
  user : String
  expiresAt : Nat
  revokedAt : Option Nat := none

/-- A row of `browser_sessions`. -/
structure Row where
  digest : String
  source : String
  user : String
  csrf : String
  idleSeconds : Nat
  issuedAt : Nat
  lastActivityAt : Nat
  idleExpiresAt : Nat
  expiresAt : Nat
  revokedAt : Option Nat := none
  deriving DecidableEq

/-- `BrowserSessionIdentity`; its token is here the digest of it. -/
structure Identity where
  verifier : String
  user : String
  csrf : String

/-- The digests of a new grant. -/
structure Grant where
  digest : String
  csrf : String

/-- What a connection calls. -/
inductive Operation
  | issue (source user : String) (grant : Grant)
  | renew (identity : Identity)
  | rotate (identity : Identity) (grant : Grant)
  | revoke (verifier : String)

/-- The next statement of a call. An `UPDATE` reads its row, waits for the row's lock, and then
replaces what it has read. -/
inductive Pc
  | idle
  | admission (operation : Operation)
  | snapshot (source user : String) (grant : Grant)
  | population (source user : String) (grant : Grant) (rest : List Row) (count : Nat)
  | insert (source user : String) (grant : Grant)
  | update (operation : Operation)
  | wait (operation : Operation) (began : Nat) (old : Row)
  | successor (identity : Identity) (grant : Grant) (old : Row)
  | commit

/-- A call: the user whose row it has locked, and its uncommitted rows. -/
structure Call where
  pc : Pc := .idle
  admitted : Option String := none
  updated : Option Row := none
  inserted : Option Row := none

structure State (n : Nat) where
  clock : Nat
  /-- The committed rows. -/
  rows : List Row := []
  calls : Fin n → Call := fun _ => {}
  /-- The rotations that were committed, old and new: no step reads them. -/
  rotations : List (String × String) := []

section
variable (credentials : String → Option Credential)

/-- `kLive`, of a row joined with its credential. -/
def live (b : Row) (now : Nat) : Bool :=
  b.revokedAt.isNone && decide (now < b.expiresAt) && decide (now < b.idleExpiresAt) &&
    match credentials b.source with
    | some c => c.revokedAt.isNone && decide (now < c.expiresAt) && decide (c.user = b.user)
    | none => false

namespace Operation

/-- The row that the statement updates. -/
def target : Operation → Option String
  | .issue .. => none
  | .renew identity | .rotate identity _ => some identity.verifier
  | .revoke verifier => some verifier

/-- The `WHERE` of the statement, besides the digest. -/
def selects (b : Row) (now : Nat) : Operation → Bool
  | .issue .. => false
  | .renew identity | .rotate identity _ =>
    decide (b.user = identity.user) && decide (b.csrf = identity.csrf) && live credentials b now
  | .revoke _ => b.revokedAt.isNone

/-- The `SET` of the statement. -/
def sets (b : Row) (now : Nat) : Operation → Row
  | .issue .. => b
  | .renew _ =>
    {b with
      lastActivityAt := now
      idleExpiresAt := match credentials b.source with
        | some c => min b.expiresAt (min c.expiresAt (now + b.idleSeconds * second))
        | none => b.idleExpiresAt}
  | .rotate .. | .revoke _ => {b with revokedAt := some now}

/-- Whom the call has to be admitted for. -/
def admission : Operation → Option String
  | .issue _ user _ => some user
  | .rotate identity _ => some identity.user
  | .renew _ | .revoke _ => none

/-- The first statement of the call. -/
def first (operation : Operation) : Pc :=
  if operation.admission.isSome then .admission operation else .update operation

/-- The statement after the admission. -/
def second : Operation → Pc
  | .issue source user grant => .snapshot source user grant
  | operation => .update operation

/-- What follows the update. -/
def after (old : Row) : Operation → Pc
  | .rotate identity grant => .successor identity grant old
  | _ => .commit

end Operation

variable {n : Nat}

namespace State

def put (s : State n) (i : Fin n) (call : Call) : State n :=
  {s with calls := Function.update s.calls i call}

/-- No other call has the row locked. -/
def RowFree (s : State n) (i : Fin n) (digest : String) : Prop :=
  ∀ j, j ≠ i → ∀ row, (s.calls j).updated = some row → row.digest ≠ digest

/-- The primary key allows a new row of this digest. -/
def Fresh (s : State n) (digest : String) : Prop :=
  (∀ row ∈ s.rows, row.digest ≠ digest) ∧
    ∀ j row, (s.calls j).inserted = some row → row.digest ≠ digest

/-- `COMMIT`. -/
def commit (s : State n) (i : Fin n) : State n :=
  let call := s.calls i
  {s.put i {} with
    rows := (call.updated.elim s.rows (replace Row.digest s.rows)) ++ call.inserted.toList
    rotations := match call.updated, call.inserted with
      | some old, some new => (old.digest, new.digest) :: s.rotations
      | _, _ => s.rotations}

end State

/-- The row that `IssueBrowserSession` inserts. -/
def issued (options : Options) (source : String) (grant : Grant) (c : Credential) (at' : Nat) : Row where
  digest := grant.digest
  source := source
  user := c.user
  csrf := grant.csrf
  idleSeconds := options.idle
  issuedAt := at'
  lastActivityAt := at'
  idleExpiresAt := min c.expiresAt (at' + options.idle * second)
  expiresAt := min c.expiresAt (at' + options.lifetime * second)

/-- The row that `RotateBrowserSession` inserts. -/
def successor (old : Row) (grant : Grant) (c : Credential) (at' : Nat) : Row where
  digest := grant.digest
  source := old.source
  user := old.user
  csrf := grant.csrf
  idleSeconds := old.idleSeconds
  issuedAt := at'
  lastActivityAt := at'
  idleExpiresAt := min old.expiresAt (min c.expiresAt (at' + old.idleSeconds * second))
  expiresAt := min old.expiresAt c.expiresAt

/-- Time passes, or a call executes a statement. -/
inductive Step (options : Options) (s : State n) : State n → Prop
  | time (now : Nat) : s.clock ≤ now → Step options s {s with clock := now}
  | call (i : Fin n) (operation : Operation) : (s.calls i).pc = .idle →
    Step options s (s.put i {pc := operation.first})
  /-- `SELECT 1 FROM "User" ... FOR UPDATE`. -/
  | admission (i : Fin n) (operation : Operation) : (s.calls i).pc = .admission operation →
    (∀ j, j ≠ i → (s.calls j).admitted ≠ operation.admission) →
    Step options s (s.put i {pc := operation.second, admitted := operation.admission})
  /-- `SELECT count(*)` begins: its snapshot has these rows of the user. -/
  | snapshot (i : Fin n) (source user : String) (grant : Grant) :
    (s.calls i).pc = .snapshot source user grant →
    Step options s (s.put i {s.calls i with
      pc := .population source user grant (s.rows.filter fun row => row.user = user) 0})
  /-- A row of its snapshot is judged. -/
  | judge (i : Fin n) (source user : String) (grant : Grant) (row : Row) (rest : List Row)
    (count : Nat) : (s.calls i).pc = .population source user grant (row :: rest) count →
    Step options s (s.put i {s.calls i with
      pc := .population source user grant rest
        (if live credentials row s.clock = true then count + 1 else count)})
  /-- The population is below the limit. -/
  | below (i : Fin n) (source user : String) (grant : Grant) (count : Nat) :
    (s.calls i).pc = .population source user grant [] count → count < options.sessionsPerUser →
    Step options s (s.put i {s.calls i with pc := .insert source user grant})
  | insert (i : Fin n) (source user : String) (grant : Grant) (c : Credential) :
    (s.calls i).pc = .insert source user grant → credentials source = some c → c.user = user →
    c.revokedAt = none → s.clock < c.expiresAt → s.Fresh grant.digest →
    Step options s (s.put i {s.calls i with
      pc := .commit
      inserted := some (issued options source grant c s.clock)})
  /-- An `UPDATE` finds its row. -/
  | read (i : Fin n) (operation : Operation) (row : Row) : (s.calls i).pc = .update operation →
    row ∈ s.rows → operation.target = some row.digest →
    operation.selects credentials row s.clock = true →
    Step options s (s.put i {s.calls i with pc := .wait operation s.clock row})
  /-- Another call has replaced the row meanwhile: the newest version is read. -/
  | reread (i : Fin n) (operation : Operation) (began : Nat) (old row : Row) :
    (s.calls i).pc = .wait operation began old → s.RowFree i old.digest → old ∉ s.rows →
    row ∈ s.rows → row.digest = old.digest → operation.selects credentials row s.clock = true →
    Step options s (s.put i {s.calls i with pc := .wait operation s.clock row})
  /-- The row is replaced, with values that were computed at `at'`. -/
  | lock (i : Fin n) (operation : Operation) (began : Nat) (old : Row) (at' : Nat) :
    (s.calls i).pc = .wait operation began old → s.RowFree i old.digest → old ∈ s.rows →
    began ≤ at' → at' ≤ s.clock →
    Step options s (s.put i {s.calls i with
      pc := operation.after old
      updated := some (operation.sets credentials old at')})
  /-- The `INSERT` of a rotation, and its checks. The stamp may be older than the update. -/
  | successor (i : Fin n) (identity : Identity) (grant : Grant) (old : Row) (c : Credential)
    (at' : Nat) : (s.calls i).pc = .successor identity grant old →
    credentials old.source = some c → at' ≤ s.clock → s.Fresh grant.digest →
    at' < min old.expiresAt c.expiresAt →
    Step options s (s.put i {s.calls i with
      pc := .commit
      inserted := some (BrowserSession.successor old grant c at')})
  | commit (i : Fin n) : (s.calls i).pc = .commit → Step options s (s.commit i)
  /-- A refusal, an `UPDATE` of no row, or any other failure. -/
  | rollback (i : Fin n) : Step options s (s.put i {})

/-- The runs of any number of connections, from an installed table without sessions. -/
abbrev Reached (options : Options) (s : State n) : Prop :=
  Reachable (fun first : State n => ∃ clock, first = {clock}) (Step credentials options) s

end

end Agiru.BrowserSession
