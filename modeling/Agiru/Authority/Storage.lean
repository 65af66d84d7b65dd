import Agiru.Library.RowLocks
import Agiru.Library.Undo

/-! What a page's calls may still do, and when they lose it: `PageCallAuthority`.

A call acts for a user, with a credential or with a browser session that a credential started, on one page context. All
four are rows, and others revoke, renew, invalidate and delete them while the call runs. Before each of its commits the
call asks for them, takes locks that keep them as they are, and asks again. Every statement is a step; any number of
connections step in any order, each in transactions of its own, and time passes between the steps. -/
namespace Agiru.Authority
open RowLocks Undo Relation

/-! ### The rows -/

/-- A row of `User`, as far as `RequireActiveUser` reads it. -/
structure User where
  userName : String
  enabled : Bool
  expiryDate : Option Nat
  deriving DecidableEq

/-- A row of `credentials`. -/
structure Credential where
  user : String
  expiresAt : Nat
  revokedAt : Option Nat
  deriving DecidableEq

/-- A row of `browser_sessions`. -/
structure Browser where
  source : String
  user : String
  csrf : String
  idleExpiresAt : Nat
  expiresAt : Nat
  revokedAt : Option Nat
  deriving DecidableEq

/-- A row of `page_contexts`. -/
structure Context where
  user : String
  host : String
  company : String
  credential : Option String
  expiresAt : Nat
  invalidated : Bool
  deriving DecidableEq

inductive Key
  | user (id : String)
  | credential (digest : String)
  | browser (digest : String)
  | context (handle : String)
  deriving DecidableEq

inductive Row
  | user (row : User)
  | credential (row : Credential)
  | browser (row : Browser)
  | context (row : Context)
  deriving DecidableEq

/-- What there is of a key. Keys are not used again. -/
inductive Cell
  | unused
  | row (row : Row)
  | deleted
  deriving DecidableEq

abbrev Rows : Type := Key → Cell

namespace Rows
variable (t : Rows)

def user (id : String) : Option User :=
  match t (.user id) with
  | .row (.user row) => some row
  | _ => none

def credential (digest : String) : Option Credential :=
  match t (.credential digest) with
  | .row (.credential row) => some row
  | _ => none

def browser (digest : String) : Option Browser :=
  match t (.browser digest) with
  | .row (.browser row) => some row
  | _ => none

def context (handle : String) : Option Context :=
  match t (.context handle) with
  | .row (.context row) => some row
  | _ => none

end Rows

/-- What a statement may make of a row. -/
inductive Becomes : Cell → Cell → Prop
  | inserted (row : Row) : Becomes .unused (.row row)
  | deleted (row : Row) : Becomes (.row row) .deleted
  | user (row row' : User) : Becomes (.row (.user row)) (.row (.user row'))
  /-- `RevokeClientCredential`. -/
  | revoked (row : Credential) (now : Nat) : row.revokedAt = none →
    Becomes (.row (.credential row)) (.row (.credential {row with revokedAt := some now}))
  /-- `RenewBrowserSession`. -/
  | renewed (row : Browser) (idleExpiresAt : Nat) : row.revokedAt = none →
    Becomes (.row (.browser row)) (.row (.browser {row with idleExpiresAt}))
  /-- `RevokeBrowserSession`, `RotateBrowserSession`. -/
  | ended (row : Browser) (now : Nat) : row.revokedAt = none →
    Becomes (.row (.browser row)) (.row (.browser {row with revokedAt := some now}))
  /-- A context is invalidated, or its revision counted on. -/
  | context (row : Context) (invalidated : Bool) : (row.invalidated = true → invalidated = true) →
    Becomes (.row (.context row)) (.row (.context {row with invalidated}))

/-! ### What a call asks for -/

/-- `PageCall`, and the company of its host. -/
structure Call where
  pageHandle : String
  host : String
  company : String
  browserCsrf : String
  credential : String
  user : String
  deadline : Nat

section
variable (secureTokenDigest : String → String)

/-- The context is the call's, under the digest that it was opened with. -/
def Context.serves (p : Context) (call : Call) (digest : String) (now : Nat) : Bool :=
  decide (p.credential = some digest) && decide (p.host = call.host) && decide (p.user = call.user) &&
    decide (p.company = call.company) && !p.invalidated && decide (now < p.expiresAt)

def Credential.serves (c : Credential) (user : String) (now : Nat) : Bool :=
  decide (c.user = user) && c.revokedAt.isNone && decide (now < c.expiresAt)

def Browser.serves (b : Browser) (call : Call) (now : Nat) : Bool :=
  decide (b.user = call.user) && decide (b.csrf = secureTokenDigest call.browserCsrf) && b.revokedAt.isNone &&
    decide (now < b.expiresAt) && decide (now < b.idleExpiresAt)

/-- The rows that `Live` joins, where there are any. -/
def Call.keys (call : Call) (t : Rows) : List Key :=
  if call.browserCsrf = "" then [.credential call.credential, .context call.pageHandle]
  else .browser call.credential :: .context call.pageHandle ::
    ((t.browser call.credential).map fun b => Key.credential b.source).toList

/-- `Live`. -/
def live (t : Rows) (call : Call) (now : Nat) : Bool :=
  if call.browserCsrf = "" then
    match t.credential call.credential, t.context call.pageHandle with
    | some c, some p => c.serves call.user now && p.serves call call.credential now
    | _, _ => false
  else
    match t.browser call.credential, t.context call.pageHandle with
    | some b, some p =>
      match t.credential b.source with
      | some c => b.serves secureTokenDigest call now && c.serves b.user now && p.serves call call.credential now
      | none => false
    | _, _ => false

/-- `RequireActiveUser`; no user has the null identity. -/
def activeUser (t : Rows) (id : String) (now : Nat) : Bool :=
  match t.user id with
  | some row => decide (row.userName ≠ "") && row.enabled && (row.expiryDate.all fun expiry => decide (now < expiry))
  | none => false

/-! ### Connections -/

/-- The next statement of `LockCommit`, if one is under way. -/
inductive Pc
  | body
  | checkLive | checkUser | lockUser | checkLocked | lockLive
  /-- The lock of what is live began to wait, at a time of the database's clock. -/
  | wait (began : Nat)
  | commit
  deriving DecidableEq

/-- A connection: of a page's call, or of any other program. -/
structure Connection where
  call : Option Call := none
  pc : Pc := .body
  cancelled : Bool := false
  /-- When `LockCommit` was called, on the database's clock and that of the day: no step reads it. -/
  asked : Nat × Nat := (0, 0)

variable {ι : Type} [DecidableEq ι]

structure State (ι : Type) where
  /-- The database's clock, and the program's: of the day, and the steady one. -/
  clock : Nat
  today : Nat
  steady : Nat
  store : Store ι Key Cell
  connections : ι → Connection := fun _ => {}

namespace State

def put (s : State ι) (i : ι) (connection : Connection) : State ι :=
  {s with connections := Function.update s.connections i connection}

/-- The connection's next statement. -/
def goto (s : State ι) (i : ι) (pc : Pc) : State ι := s.put i {s.connections i with pc}

def commit (s : State ι) (i : ι) : State ι :=
  ({s with store := ⟨s.store.view i, Function.update s.store.shared i fun _ => False,
    Function.update s.store.pending i fun _ => none⟩} : State ι).goto i .body

/-- A page's call commits only behind its `LockCommit`. -/
def MayCommit (s : State ι) (i : ι) : Prop := (s.connections i).call = none ∨ (s.connections i).pc = .commit

end State

inductive Step (s : State ι) : State ι → Prop
  | time (clock today steady : Nat) : s.clock ≤ clock → s.today ≤ today → s.steady ≤ steady →
    Step s {s with clock, today, steady}
  /-- A connection begins with another call, or with anything else. -/
  | start (i : ι) (call : Option Call) (cancelled : Bool) : (∀ k, s.store.pending i k = none) →
    (∀ k, ¬ s.store.shared i k) → Step s (s.put i {call := call, cancelled := cancelled})
  /-- A statement of the body, or of another program, writes or locks, or goes back to a savepoint. -/
  | body (i : ι) (store : Store ι Key Cell) : (s.connections i).pc = .body →
    Move Becomes i s.store store → store.rows = s.store.rows → Step s {s with store}
  | ask (i : ι) (call : Call) : (s.connections i).pc = .body → (s.connections i).call = some call →
    (s.connections i).cancelled = false → s.steady < call.deadline →
    Step s (s.put i {s.connections i with pc := .checkLive, asked := (s.clock, s.today)})
  | checkLive (i : ι) (call : Call) : (s.connections i).pc = .checkLive → (s.connections i).call = some call →
    live secureTokenDigest s.store.rows call s.clock = true → Step s (s.goto i .checkUser)
  | checkUser (i : ι) (call : Call) : (s.connections i).pc = .checkUser → (s.connections i).call = some call →
    activeUser s.store.rows call.user s.today = true → Step s (s.goto i .lockUser)
  /-- `SELECT 1 FROM "User" ... FOR SHARE`. -/
  | lockUser (i : ι) (call : Call) (store : Store ι Key Cell) : (s.connections i).pc = .lockUser →
    (s.connections i).call = some call → s.store.Unwritten i (.user call.user) →
    Rows.user (s.store.view i) call.user ≠ none →
    store = {s.store with
      shared := Function.update s.store.shared i fun k => s.store.shared i k ∨ k = .user call.user} →
    Step s (({s with store} : State ι).goto i .checkLocked)
  | checkLocked (i : ι) (call : Call) : (s.connections i).pc = .checkLocked → (s.connections i).call = some call →
    activeUser s.store.rows call.user s.today = true → Step s (s.goto i .lockLive)
  | lockLive (i : ι) : (s.connections i).pc = .lockLive → Step s (s.goto i (.wait s.clock))
  /-- `FOR SHARE`: the newest versions of the rows, judged at a time since the statement began. -/
  | locked (i : ι) (call : Call) (began now : Nat) (store : Store ι Key Cell) :
    (s.connections i).pc = .wait began → (s.connections i).call = some call → began ≤ now → now ≤ s.clock →
    live secureTokenDigest (s.store.view i) call now = true →
    (∀ k ∈ call.keys (s.store.view i), s.store.Unwritten i k) →
    store = {s.store with
      shared := Function.update s.store.shared i fun k => s.store.shared i k ∨ k ∈ call.keys (s.store.view i)} →
    Step s (({s with store} : State ι).goto i .commit)
  /-- A check fails, or a statement: the call is cancelled, and its body goes on. -/
  | refused (i : ι) : Step s (s.put i {s.connections i with pc := .body, cancelled := true})
  /-- Another thread cancels the call. -/
  | cancel (i : ι) : Step s (s.put i {s.connections i with cancelled := true})
  | commit (i : ι) : s.MayCommit i → Step s (s.commit i)
  /-- A `Commit` above an isolation floor releases its savepoint and commits nothing. -/
  | above (i : ι) : (s.connections i).pc = .commit → Step s (s.goto i .body)
  | rollback (i : ι) (store : Store ι Key Cell) :
    store = {s.store with
      shared := Function.update s.store.shared i fun _ => False
      pending := Function.update s.store.pending i fun _ => none} →
    Step s (({s with store} : State ι).goto i .body)

/-- The runs of any number of connections, from any rows. -/
abbrev Reached (s : State ι) : Prop :=
  Reachable (fun first : State ι => ∃ clock today steady rows,
    first = {clock, today, steady, store := ⟨rows, fun _ _ => False, fun _ _ => none⟩}) (Step secureTokenDigest) s

end

end Agiru.Authority
