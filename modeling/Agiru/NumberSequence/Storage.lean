import Agiru.Library.Undo
import Agiru.Library.Intervals

/-! Number sequences: a registry of identities, and a database sequence behind each.

Each statement of the database functions `number_sequence_v1` and `reserve_sequence_v1` is a
step of its own, and so is each statement of a transaction around them; any number of
sessions step in any order. What a transaction writes to the registry and to the catalogue
is its own until it commits; what `setval` writes to a sequence is everyone's at once, and
is never undone. -/
namespace Agiru.NumberSequence
open Undo Ranges

/-! ### Identities and their locks -/

structure Identity where
  companySpecific : Bool
  company : String
  name : String
  deriving DecidableEq

/-- `company_name := CASE WHEN per_company THEN company_name ELSE '' END`. -/
def identityOf (perCompany : Bool) (companyName sequenceName : String) : Identity :=
  ⟨perCompany, if perCompany then companyName else "", sequenceName⟩

/-- `hashtextextended(...) & 9223372036854775806`. -/
def identityKey (hash : Identity → BitVec 64) (identity : Identity) : BitVec 64 :=
  hash identity &&& 9223372036854775806#64

/-- `identity_key | 1`. -/
def allocationKey (hash : Identity → BitVec 64) (identity : Identity) : BitVec 64 :=
  identityKey hash identity ||| 1#64

/-! ### Sequences -/

/-- A row of `pg_sequence`. -/
structure Properties where
  seqincrement : Int
  seqmin : Int
  seqmax : Int
  seqcache : Nat
  seqcycle : Bool
  deriving DecidableEq

/-- `CREATE SEQUENCE ... INCREMENT BY step ... CACHE 1 NO CYCLE`. -/
def Properties.created (step : Int) : Properties :=
  ⟨step, -9223372036854775808, 9223372036854775807, 1, false⟩

/-- A sequence in the catalogue. `node` is the file that its values are in. -/
structure Storage where
  properties : Properties
  node : Nat
  deriving DecidableEq

/-- What a file holds; and, which no step reads, the sequence it is of, its increment and the
value it began with. -/
structure File where
  lastValue : Int
  isCalled : Bool
  id : Nat
  seed : Int
  increment : Int
  deriving DecidableEq

/-- A file that a sequence starts with. -/
def File.fresh (id : Nat) (seed increment : Int) : File := ⟨seed, false, id, seed, increment⟩

/-- `previous + CASE WHEN called THEN increment ELSE 0 END`. -/
def firstValue (increment previous : Int) (called : Bool) : Int :=
  previous + if called then increment else 0

/-- `first_value + (count - 1) * increment`. -/
def finalValue (first count increment : Int) : Int := first + (count - 1) * increment

/-- The requested range exceeds the sequence bounds. -/
def Properties.exceeded (properties : Properties) (first final : Int) : Bool :=
  first < properties.seqmin || first > properties.seqmax || final < properties.seqmin ||
    final > properties.seqmax

/-! ### Sessions -/

inductive Operation
  | insert (seed step : Int)
  | delete
  | restart (seed : Int)
  | existing
  | current
  | reserve (count : Int)
  deriving DecidableEq

/-- `operation IN ('insert', 'delete', 'restart')`. -/
def Operation.mutation : Operation → Bool
  | .insert .. | .delete | .restart _ => true
  | _ => false

/-- `operation IN ('current', 'reserve')`. -/
def Operation.allocation : Operation → Bool
  | .current | .reserve _ => true
  | _ => false

/-- What a transaction does: the locks it holds until its end, and what it writes to the
registry and to the catalogue. -/
inductive Effect
  | lock (key : BitVec 64) (exclusive : Bool)
  | entry (identity : Identity) (id : Option Nat)
  | storage (id : Nat) (storage : Option Storage)
  deriving DecidableEq

/-- The row that a call returns; and, which no step reads, the range it has reserved. -/
structure Row where
  value : Option Int
  increment : Option Int
  present : Bool
  range : Option (Nat × Range)

/-- The next statement of a session: the call's locks, its block, its end. -/
inductive Pc
  | idle
  | lockIdentity (op : Operation) (identity : Identity)
  | lockAllocation (op : Operation) (identity : Identity)
  | find (op : Operation) (identity : Identity)
  | found (op : Operation) (identity : Identity) (entryId : Option Nat)
  | create (op : Operation) (identity : Identity) (entryId : Nat) (seed step : Int)
  | deleteEntry (op : Operation) (identity : Identity) (entryId : Nat)
  | readLast (op : Operation) (identity : Identity) (entryId : Nat) (count : Int)
    (properties : Properties)
  | setLast (op : Operation) (identity : Identity) (entryId : Nat) (count : Int)
    (properties : Properties) (first : Int)
  | blockEnd (op : Operation) (identity : Identity) (row : Option Row)
  | unlock (op : Operation) (identity : Identity) (row : Option Row)
  | handler (op : Operation) (identity : Identity)
  | leave (row : Option Row)

/-- The call of a statement in the block. -/
def Pc.block : Pc → Option (Operation × Identity)
  | .lockAllocation op identity | .find op identity | .found op identity _
  | .create op identity .. | .deleteEntry op identity _ | .readLast op identity ..
  | .setLast op identity .. | .blockEnd op identity _ => some (op, identity)
  | _ => none

structure Session where
  inTransaction : Bool := false
  log : Log Effect := []
  /-- A statement has failed, and only a rollback goes on. -/
  failed : Bool := false
  pc : Pc := .idle

structure State (n : Nat) where
  /-- The registry, as it is committed. -/
  entries : Identity → Option Nat := fun _ => none
  /-- The catalogue, as it is committed. -/
  storages : Nat → Option Storage := fun _ => none
  files : List File := []
  /-- The identities that entries were made for: the next entry is numbered by their count. -/
  made : List Identity := []
  /-- The session locks: who holds a key, and how often. -/
  held : BitVec 64 → Option (Fin n × Nat) := fun _ => none
  sessions : Fin n → Session := fun _ => {}
  /-- What was reserved, and what of it calls have returned, the newest first: no step reads
  them. -/
  reserved : List (Nat × Range) := []
  handed : List (Nat × Range) := []

/-- The registry under what a transaction has written, the newest first. -/
def entriesOf (committed : Identity → Option Nat) : List Effect → Identity → Option Nat
  | [], identity => committed identity
  | .entry identity' id :: before, identity =>
    if identity' = identity then id else entriesOf committed before identity
  | _ :: before, identity => entriesOf committed before identity

/-- The catalogue under what a transaction has written. -/
def storagesOf (committed : Nat → Option Storage) : List Effect → Nat → Option Storage
  | [], id => committed id
  | .storage id' storage :: before, id =>
    if id' = id then storage else storagesOf committed before id
  | _ :: before, id => storagesOf committed before id

variable {n : Nat}

namespace State

def put (s : State n) (i : Fin n) (session : Session) : State n :=
  {s with sessions := Function.update s.sessions i session}

/-- The registry as a session sees it. -/
def entry (s : State n) (i : Fin n) : Identity → Option Nat :=
  entriesOf s.entries (done (s.sessions i).log)

/-- The catalogue as a session sees it. -/
def storage (s : State n) (i : Fin n) : Nat → Option Storage :=
  storagesOf s.storages (done (s.sessions i).log)

/-- No other session has a lock that conflicts. -/
def Free (s : State n) (i : Fin n) (key : BitVec 64) (exclusive : Bool) : Prop :=
  ∀ j, j ≠ i → (∀ count, s.held key ≠ some (j, count)) ∧
    .lock key true ∉ done (s.sessions j).log ∧
    (exclusive = true → .lock key false ∉ done (s.sessions j).log)

/-- A session lock taken once more. -/
def acquired (s : State n) (i : Fin n) (key : BitVec 64) : BitVec 64 → Option (Fin n × Nat) :=
  Function.update s.held key <|
    match s.held key with
    | none => some (i, 1)
    | some (_, count) => some (i, count + 1)

/-- A session lock released once, if the session holds it. -/
def unlocked (s : State n) (i : Fin n) (key : BitVec 64) : BitVec 64 → Option (Fin n × Nat) :=
  Function.update s.held key <|
    match s.held key with
    | none => none
    | some (holder, count) =>
      if holder = i then if count = 1 then none else some (i, count - 1) else some (holder, count)

/-- `IF allocation THEN PERFORM pg_advisory_unlock(identity_key | 1)`. -/
def released (s : State n) (hash : Identity → BitVec 64) (i : Fin n) (op : Operation)
    (identity : Identity) : BitVec 64 → Option (Fin n × Nat) :=
  if op.allocation then s.unlocked i (allocationKey hash identity) else s.held

end State

/-- One statement of a session. -/
inductive Step (hash : Identity → BitVec 64) (s : State n) : State n → Prop
  /-- `BEGIN`, explicit or of a statement by itself. -/
  | begin (i : Fin n) : (s.sessions i).inTransaction = false → (s.sessions i).pc = .idle →
    Step hash s (s.put i {inTransaction := true})
  | savepoint (i : Fin n) : (s.sessions i).inTransaction = true → (s.sessions i).pc = .idle →
    (s.sessions i).failed = false →
    Step hash s (s.put i {s.sessions i with log := .savepoint :: (s.sessions i).log})
  /-- `ROLLBACK TO` the newest savepoint, which stays. -/
  | rollbackTo (i : Fin n) : (s.sessions i).pc = .idle → .savepoint ∈ (s.sessions i).log →
    Step hash s (s.put i {s.sessions i with
      log := .savepoint :: undo (s.sessions i).log
      failed := false})
  /-- `RELEASE` of the newest savepoint. -/
  | release (i : Fin n) : (s.sessions i).pc = .idle → (s.sessions i).failed = false →
    Step hash s (s.put i {s.sessions i with log := release (s.sessions i).log})
  | commit (i : Fin n) : (s.sessions i).pc = .idle → (s.sessions i).failed = false →
    Step hash s {s.put i {} with
      entries := s.entry i
      storages := s.storage i}
  /-- `ROLLBACK`, or `COMMIT` after a failure. -/
  | rollback (i : Fin n) : (s.sessions i).pc = .idle → Step hash s (s.put i {})
  /-- The connection ends, wherever it is; its locks end with it. -/
  | disconnect (i : Fin n) :
    Step hash s {s.put i {} with held := fun key => (s.held key).filter fun held => held.1 ≠ i}
  | call (i : Fin n) (op : Operation) (perCompany : Bool) (companyName sequenceName : String) :
    (s.sessions i).inTransaction = true → (s.sessions i).pc = .idle →
    (s.sessions i).failed = false →
    Step hash s (s.put i {s.sessions i with
      pc := .lockIdentity op (identityOf perCompany companyName sequenceName)})
  /-- `pg_advisory_xact_lock(identity_key)`; then the block begins. -/
  | lockExclusive (i : Fin n) (op : Operation) (identity : Identity) :
    (s.sessions i).pc = .lockIdentity op identity → op.mutation = true →
    s.Free i (identityKey hash identity) true →
    Step hash s (s.put i {s.sessions i with
      log := .savepoint :: .effect (.lock (identityKey hash identity) true) :: (s.sessions i).log
      pc := .find op identity})
  /-- `pg_advisory_xact_lock_shared(identity_key)`. -/
  | lockShared (i : Fin n) (op : Operation) (identity : Identity) :
    (s.sessions i).pc = .lockIdentity op identity → op.allocation = true →
    s.Free i (identityKey hash identity) false →
    Step hash s (s.put i {s.sessions i with
      log := .savepoint :: .effect (.lock (identityKey hash identity) false) :: (s.sessions i).log
      pc := .lockAllocation op identity})
  | lockNone (i : Fin n) (op : Operation) (identity : Identity) :
    (s.sessions i).pc = .lockIdentity op identity → op.mutation = false →
    op.allocation = false →
    Step hash s (s.put i {s.sessions i with
      log := .savepoint :: (s.sessions i).log
      pc := .find op identity})
  /-- `pg_advisory_lock(identity_key | 1)`. -/
  | lockAllocation (i : Fin n) (op : Operation) (identity : Identity) :
    (s.sessions i).pc = .lockAllocation op identity →
    s.Free i (allocationKey hash identity) true →
    Step hash s {s.put i {s.sessions i with pc := .find op identity} with
      held := s.acquired i (allocationKey hash identity)}
  /-- `SELECT registry.id INTO entry_id`. -/
  | find (i : Fin n) (op : Operation) (identity : Identity) :
    (s.sessions i).pc = .find op identity →
    Step hash s (s.put i {s.sessions i with pc := .found op identity (s.entry i identity)})
  | absent (i : Fin n) (op : Operation) (identity : Identity) :
    (s.sessions i).pc = .found op identity none → (∀ seed step, op ≠ .insert seed step) →
    Step hash s (s.put i {s.sessions i with
      pc := .blockEnd op identity
        (if op = .existing then some ⟨none, none, false, none⟩ else none)})
  | existing (i : Fin n) (identity : Identity) (entryId : Nat) :
    (s.sessions i).pc = .found .existing identity (some entryId) →
    Step hash s (s.put i {s.sessions i with
      pc := .blockEnd .existing identity (some ⟨none, none, true, none⟩)})
  /-- `INSERT INTO number_sequences_v1`, whose identities are unique. -/
  | insertEntry (i : Fin n) (identity : Identity) (seed step : Int) :
    (s.sessions i).pc = .found (.insert seed step) identity none → step ≠ 0 →
    s.entry i identity = none →
    Step hash s {s.put i {s.sessions i with
        log := .effect (.entry identity (some s.made.length)) :: (s.sessions i).log
        pc := .create (.insert seed step) identity s.made.length seed step} with
      made := s.made ++ [identity]}
  /-- `CREATE SEQUENCE`. -/
  | createSequence (i : Fin n) (op : Operation) (identity : Identity) (entryId : Nat)
    (seed step : Int) :
    (s.sessions i).pc = .create op identity entryId seed step →
    Step hash s {s.put i {s.sessions i with
        log := .effect (.storage entryId (some ⟨.created step, s.files.length⟩)) ::
          (s.sessions i).log
        pc := .blockEnd op identity (some ⟨none, none, true, none⟩)} with
      files := s.files ++ [.fresh entryId seed step]}
  /-- `DROP SEQUENCE`. -/
  | dropSequence (i : Fin n) (identity : Identity) (entryId : Nat) (storage : Storage) :
    (s.sessions i).pc = .found .delete identity (some entryId) →
    s.storage i entryId = some storage →
    Step hash s (s.put i {s.sessions i with
      log := .effect (.storage entryId none) :: (s.sessions i).log
      pc := .deleteEntry .delete identity entryId})
  /-- `DELETE FROM number_sequences_v1`. -/
  | deleteEntry (i : Fin n) (op : Operation) (identity : Identity) (entryId : Nat) :
    (s.sessions i).pc = .deleteEntry op identity entryId →
    Step hash s (s.put i {s.sessions i with
      log := .effect (.entry identity none) :: (s.sessions i).log
      pc := .blockEnd op identity (some ⟨none, none, false, none⟩)})
  /-- `ALTER SEQUENCE ... RESTART WITH`, which begins a new file. -/
  | restart (i : Fin n) (identity : Identity) (seed : Int) (entryId : Nat) (storage : Storage) :
    (s.sessions i).pc = .found (.restart seed) identity (some entryId) →
    s.storage i entryId = some storage →
    Step hash s {s.put i {s.sessions i with
        log := .effect (.storage entryId (some {storage with node := s.files.length})) ::
          (s.sessions i).log
        pc := .blockEnd (.restart seed) identity (some ⟨none, none, true, none⟩)} with
      files := s.files ++ [.fresh entryId seed storage.properties.seqincrement]}
  /-- `SELECT last_value`. -/
  | current (i : Fin n) (identity : Identity) (entryId : Nat) (storage : Storage) (file : File) :
    (s.sessions i).pc = .found .current identity (some entryId) →
    s.storage i entryId = some storage → s.files[storage.node]? = some file →
    Step hash s (s.put i {s.sessions i with
      pc := .blockEnd .current identity (some ⟨some file.lastValue, none, true, none⟩)})
  /-- `reserve_sequence_v1`: `SELECT * INTO STRICT properties FROM pg_sequence`. -/
  | readProperties (i : Fin n) (identity : Identity) (count : Int) (entryId : Nat)
    (storage : Storage) :
    (s.sessions i).pc = .found (.reserve count) identity (some entryId) →
    s.storage i entryId = some storage → 1 ≤ count →
    storage.properties.seqcache = 1 → storage.properties.seqcycle = false →
    Step hash s (s.put i {s.sessions i with
      pc := .readLast (.reserve count) identity entryId count storage.properties})
  /-- `SELECT last_value, is_called`. -/
  | readLast (i : Fin n) (op : Operation) (identity : Identity) (entryId : Nat) (count : Int)
    (properties : Properties) (storage : Storage) (file : File) :
    (s.sessions i).pc = .readLast op identity entryId count properties →
    s.storage i entryId = some storage → s.files[storage.node]? = some file →
    Step hash s (s.put i {s.sessions i with
      pc := .setLast op identity entryId count properties
        (firstValue properties.seqincrement file.lastValue file.isCalled)})
  /-- `setval(sequence_id, final_value, true)`. -/
  | setLast (i : Fin n) (op : Operation) (identity : Identity) (entryId : Nat) (count : Int)
    (properties : Properties) (first : Int) (storage : Storage) (file : File) :
    (s.sessions i).pc = .setLast op identity entryId count properties first →
    properties.exceeded first (finalValue first count properties.seqincrement) = false →
    s.storage i entryId = some storage → s.files[storage.node]? = some file →
    Step hash s {s.put i {s.sessions i with
        pc := .blockEnd op identity (some ⟨some first, some properties.seqincrement, true,
          some (storage.node, ⟨first, count.toNat, properties.seqincrement⟩)⟩)} with
      files := s.files.set storage.node {file with
        lastValue := finalValue first count properties.seqincrement
        isCalled := true}
      reserved := (storage.node, ⟨first, count.toNat, properties.seqincrement⟩) :: s.reserved}
  /-- The block ends. -/
  | blockEnd (i : Fin n) (op : Operation) (identity : Identity) (row : Option Row) :
    (s.sessions i).pc = .blockEnd op identity row →
    Step hash s (s.put i {s.sessions i with
      log := release (s.sessions i).log
      pc := .unlock op identity row})
  | unlock (i : Fin n) (op : Operation) (identity : Identity) (row : Option Row) :
    (s.sessions i).pc = .unlock op identity row →
    Step hash s {s.put i {s.sessions i with pc := .leave row} with
      held := s.released hash i op identity}
  | leave (i : Fin n) (row : Option Row) : (s.sessions i).pc = .leave row →
    Step hash s {s.put i {s.sessions i with pc := .idle} with
      handed := ((row.bind Row.range).toList) ++ s.handed}
  /-- A statement of the block fails: the block is undone. -/
  | fails (i : Fin n) (op : Operation) (identity : Identity) :
    (s.sessions i).pc.block = some (op, identity) →
    Step hash s (s.put i {s.sessions i with
      log := undo (s.sessions i).log
      pc := .handler op identity})
  /-- The handler releases the lock, and raises again. -/
  | handled (i : Fin n) (op : Operation) (identity : Identity) :
    (s.sessions i).pc = .handler op identity →
    Step hash s {s.put i {s.sessions i with failed := true, pc := .idle} with
      held := s.released hash i op identity}
  /-- A statement outside of the block fails, of a call that has no lock to release. -/
  | failsOutside (i : Fin n) (op : Operation) (identity : Identity) (row : Option Row) :
    (s.sessions i).pc = .lockIdentity op identity ∨ (s.sessions i).pc = .leave row ∨
      op.allocation = false ∧
        ((s.sessions i).pc = .unlock op identity row ∨ (s.sessions i).pc = .handler op identity) →
    Step hash s (s.put i {s.sessions i with failed := true, pc := .idle})

/-- An interrupt between the end of the block, or the start of its handler, and the statement
that releases the lock. -/
inductive Interrupt (s : State n) : State n → Prop
  | interrupted (i : Fin n) (op : Operation) (identity : Identity) (row : Option Row) :
    op.allocation = true →
    (s.sessions i).pc = .unlock op identity row ∨ (s.sessions i).pc = .handler op identity →
    Interrupt s (s.put i {s.sessions i with failed := true, pc := .idle})

/-- The runs of any number of sessions on a database that has been provisioned. -/
abbrev Reached (hash : Identity → BitVec 64) (s : State n) : Prop :=
  Reachable (fun first : State n => first = {}) (fun s t => Step hash s t ∨ Interrupt s t) s

/-- The runs in which no interrupt falls between a block and its release of the lock. -/
abbrev ReachedUninterrupted (hash : Identity → BitVec 64) (s : State n) : Prop :=
  Reachable (fun first : State n => first = {}) (Step hash) s

end Agiru.NumberSequence
