import Mathlib.Algebra.Group.Nat.Defs
import Mathlib.Data.List.Count
import Mathlib.Data.List.Nodup

/-! Reads that know when they are stale.

A read of a table has seen how often its session had written the table, and how often its reads had been refreshed.
Both are counted in an entry that all readers of the table share: the first of them brings it in and the last
takes it away, so that a later first reader counts from zero. -/
namespace Agiru.RecordChanges

/-- `RecordChanges::Revision`. -/
structure Revision where
  value : UInt64 := 0
  refreshed : UInt64 := 0
  readers : Nat := 0

section Data
variable (Session Connection Table Name : Type)

/-- `RecordRead`; its session stands for the `RecordChanges` it keeps alive. -/
structure RecordRead where
  name : Name
  owner : Session
  table : Table
  observed : UInt64
  refreshed : UInt64
  locked : Bool

/-- A thread's sessions, the current one first, each with its connection; the entries of every session, and the
reads that there are. -/
structure State where
  sessions : List (Session × Connection)
  tables : Session → Table → Option Revision
  reads : List (RecordRead Session Table Name)

/-- What happens. -/
inductive Event
  | attach (session : Session) (connection : Connection)
  | detach
  | construct (name : Name) (table : Table) (locked : Bool)
  | destruct (name : Name)
  | recordWritten (connection : Connection) (table : Table)
  | refreshRecordReads (table : Option Table)

end Data

namespace State

section Entries
variable {Session Connection Table Name : Type} [DecidableEq Session] [DecidableEq Table]

/-- No session, and no read. -/
def initial : State Session Connection Table Name := ⟨[], fun _ _ => none, []⟩

/-! ### The entries and their readers -/

variable (s : State Session Connection Table Name)

def put (session : Session) (table : Table) (revision : Option Revision) : State Session Connection Table Name :=
  { s with tables := Function.update s.tables session (Function.update (s.tables session) table revision) }

def shares (session : Session) (table : Table) (read : RecordRead Session Table Name) : Bool :=
  read.owner = session && read.table = table

/-- How many reads share an entry. -/
def readersOf (session : Session) (table : Table) : Nat := s.reads.countP (shares session table)

/-- There is an entry while it has readers, and it knows how many. -/
structure Counted : Prop where
  distinct : (s.reads.map (·.name)).Nodup
  entry : ∀ session table, (s.tables session table).map (·.readers) =
    if s.readersOf session table = 0 then none else some (s.readersOf session table)

variable {s}

theorem put_self (session : Session) (table : Table) (revision : Option Revision) :
    (s.put session table revision).tables session table = revision := by
  simp [put]

theorem put_other {session session' : Session} {table table' : Table} (revision : Option Revision)
    (h : ¬ (session' = session ∧ table' = table)) :
    (s.put session table revision).tables session' table' = s.tables session' table' := by
  by_cases hsession : session' = session
  · subst hsession
    simp [put, Function.update_of_ne fun heq => h ⟨rfl, heq⟩]
  · simp [put, Function.update_of_ne hsession]

theorem counted_initial : (initial : State Session Connection Table Name).Counted :=
  ⟨List.nodup_nil, fun _ _ => rfl⟩

/-- Entries that keep their readers. -/
theorem Counted.keep (h : s.Counted) {s' : State Session Connection Table Name} (hreads : s'.reads = s.reads)
    (htables : ∀ session table, (s'.tables session table).map (·.readers) =
        (s.tables session table).map (·.readers)) :
    s'.Counted := by
  refine ⟨hreads ▸ h.distinct, fun session table => ?_⟩
  rw [htables, h.entry]
  unfold readersOf
  rw [hreads]

theorem Counted.readers_eq (h : s.Counted) {session : Session} {table : Table} {revision : Revision}
    (hrevision : s.tables session table = some revision) :
    revision.readers = s.readersOf session table ∧ s.readersOf session table ≠ 0 := by
  have hentry := h.entry session table
  rw [hrevision, Option.map_some] at hentry
  split at hentry
  · cases hentry
  · next hsome => exact ⟨Option.some.inj hentry, hsome⟩

/-- A read has an entry. -/
theorem Counted.found (h : s.Counted) {read : RecordRead Session Table Name} (hread : read ∈ s.reads) :
    ∃ revision, s.tables read.owner read.table = some revision ∧
      revision.readers = s.readersOf read.owner read.table := by
  have hentry := h.entry read.owner read.table
  have hsome : s.readersOf read.owner read.table ≠ 0 := by
    rw [readersOf, ne_eq, List.countP_eq_zero]
    intro hnone
    simpa [shares] using hnone read hread
  rw [if_neg hsome, Option.map_eq_some_iff] at hentry
  exact hentry

end Entries

/-! ### A read -/

section Reads
variable {Session Connection Table Name : Type} [DecidableEq Session] [DecidableEq Table] [DecidableEq Name]
  (s : State Session Connection Table Name)

/-- `RecordRead::RecordRead`. -/
def construct (name : Name) (table : Table) (locked : Bool) : State Session Connection Table Name :=
  match s.sessions with
  | [] => s
  | (session, _) :: _ =>
    if s.reads.any (·.name = name) then s
    else
      let revision := (s.tables session table).getD {}
      { s.put session table (some { revision with readers := revision.readers + 1 }) with
        reads := ⟨name, session, table, revision.value, revision.refreshed, locked⟩ :: s.reads }

/-- `RecordRead::~RecordRead`. -/
def destruct (name : Name) : State Session Connection Table Name :=
  match s.reads.find? (·.name = name) with
  | none => s
  | some read =>
    let left := (s.tables read.owner read.table).bind fun revision =>
      if revision.readers - 1 = 0 then none else some { revision with readers := revision.readers - 1 }
    { s.put read.owner read.table left with reads := s.reads.filter (·.name ≠ name) }

/-- `Current`, of a read that there is. -/
def current (name : Name) : Option Bool :=
  (s.reads.find? (·.name = name)).map fun read =>
    match s.tables read.owner read.table with
    | none => false
    | some revision =>
      read.observed = revision.value && (read.locked || read.refreshed = revision.refreshed)

variable {s}

/-- Without one of its elements, a list has one less of its kind. -/
theorem countP_without {α β : Type} [DecidableEq β] {f : α → β} {l : List α} (h : (l.map f).Nodup) {a : α}
    (ha : a ∈ l)
    (p : α → Bool) : l.countP p = (l.filter (f · ≠ f a)).countP p + (p a).toNat := by
  induction l with
  | nil => cases ha
  | cons b rest ih =>
    obtain ⟨hfirst, hrest⟩ := List.nodup_cons.mp h
    rcases List.mem_cons.mp ha with rfl | hmem
    · have hkeep : rest.filter (f · ≠ f a) = rest := by
        rw [List.filter_eq_self]
        intro c hc
        have : f c ≠ f a := fun heq => hfirst (List.mem_map.mpr ⟨c, hc, heq⟩)
        simpa using this
      rw [List.filter_cons_of_neg (by simp), hkeep, List.countP_cons]
      cases p a <;> rfl
    · have hne : f b ≠ f a := fun heq => hfirst (List.mem_map.mpr ⟨a, hmem, heq.symm⟩)
      rw [List.filter_cons_of_pos (by simpa using hne), List.countP_cons, List.countP_cons, ih hrest hmem]
      omega

theorem Counted.construct (h : s.Counted) (name : Name) (table : Table) (locked : Bool) :
    (s.construct name table locked).Counted := by
  unfold State.construct
  split
  · exact h
  next session connection rest hsessions =>
    split
    · exact h
    next hfresh =>
      have hnew : name ∉ s.reads.map (·.name) := by simpa using hfresh
      have hold : ((s.tables session table).getD {}).readers = s.readersOf session table := by
        have hentry := h.entry session table
        cases hrevision : s.tables session table with
        | some revision => exact (h.readers_eq hrevision).1
        | none =>
          by_contra hne
          rw [hrevision, if_neg fun hzero => hne hzero.symm] at hentry
          cases hentry
      refine ⟨List.nodup_cons.mpr ⟨hnew, h.distinct⟩, fun session' table' => ?_⟩
      unfold readersOf
      rw [List.countP_cons]
      by_cases hsame : session' = session ∧ table' = table
      · obtain ⟨rfl, rfl⟩ := hsame
        rw [show (s.put session' table' _).tables session' table' = _ from put_self _ _ _]
        simpa [shares, readersOf] using hold
      · have hother : ¬ (session = session' ∧ table = table') := fun heq => hsame ⟨heq.1.symm, heq.2.symm⟩
        rw [show (s.put session table _).tables session' table' = _ from put_other _ hsame, h.entry]
        simp [shares, hother, readersOf]

theorem Counted.destruct (h : s.Counted) (name : Name) : (s.destruct name).Counted := by
  unfold State.destruct
  split
  · exact h
  next read hfind =>
    obtain rfl : read.name = name := by simpa using List.find?_some hfind
    have hread := List.mem_of_find?_eq_some hfind
    obtain ⟨revision, hrevision, hreaders⟩ := h.found hread
    refine ⟨h.distinct.sublist (List.filter_sublist.map _), fun session table => ?_⟩
    have hcount : s.readersOf session table = _ := countP_without h.distinct hread (shares session table)
    change Option.map _ ((s.put read.owner read.table _).tables session table) =
      if (s.reads.filter (·.name ≠ read.name)).countP (shares session table) = 0 then none
      else some ((s.reads.filter (·.name ≠ read.name)).countP (shares session table))
    generalize (s.reads.filter (·.name ≠ read.name)).countP (shares session table) = left at *
    by_cases hsame : session = read.owner ∧ table = read.table
    · obtain ⟨rfl, rfl⟩ := hsame
      have hself : shares read.owner read.table read = true := by simp [shares]
      rw [hself, Bool.toNat_true] at hcount
      rw [put_self, hrevision, Option.bind_some, hreaders, hcount, Nat.add_sub_cancel]
      split <;> rfl
    · have hother : shares session table read = false := by
        rw [shares, Bool.and_eq_false_iff, decide_eq_false_iff_not, decide_eq_false_iff_not]
        exact not_and_or.mp fun heq => hsame ⟨heq.1.symm, heq.2.symm⟩
      rw [hother, Bool.toNat_false, Nat.add_zero] at hcount
      rw [put_other _ hsame, h.entry, hcount]

/-- A read whose counters have gone on since it was made. -/
structure Seen (s : State Session Connection Table Name) (read : RecordRead Session Table Name)
    (writes refreshes : Nat) :
    Prop where
  mem : read ∈ s.reads
  entry : ∃ revision, s.tables read.owner read.table = some revision ∧
    revision.value = read.observed + UInt64.ofNat writes ∧
    revision.refreshed = read.refreshed + UInt64.ofNat refreshes

variable {read : RecordRead Session Table Name} {w r : Nat}

theorem Seen.construct (h : Seen s read w r) (name : Name) (table : Table) (locked : Bool) :
    Seen (s.construct name table locked) read w r := by
  unfold State.construct
  split
  · exact h
  next session connection rest hsessions =>
    split
    · exact h
    · obtain ⟨revision, hrevision, hvalue, hrefreshed⟩ := h.entry
      refine ⟨List.mem_cons_of_mem _ h.mem, ?_⟩
      by_cases hsame : read.owner = session ∧ read.table = table
      · obtain ⟨rfl, rfl⟩ := hsame
        refine ⟨{ revision with readers := revision.readers + 1 }, ?_, hvalue, hrefreshed⟩
        rw [hrevision]
        exact put_self _ _ _
      · exact ⟨revision, (put_other _ hsame).trans hrevision, hvalue, hrefreshed⟩

/-- Another reader's going leaves the entry, for it is not the last. -/
theorem Seen.destruct (h : Seen s read w r) (hcounted : s.Counted) {name : Name} (hname : name ≠ read.name) :
    Seen (s.destruct name) read w r := by
  unfold State.destruct
  split
  · exact h
  next other hfind =>
    obtain rfl : other.name = name := by simpa using List.find?_some hfind
    have hother := List.mem_of_find?_eq_some hfind
    obtain ⟨revision, hrevision, hvalue, hrefreshed⟩ := h.entry
    have hstays : read ∈ s.reads.filter (·.name ≠ other.name) :=
      List.mem_filter.mpr ⟨h.mem, by simpa using hname.symm⟩
    refine ⟨hstays, ?_⟩
    by_cases hsame : read.owner = other.owner ∧ read.table = other.table
    · have hcount := countP_without hcounted.distinct hother (shares read.owner read.table)
      have hmore : 0 < (s.reads.filter (·.name ≠ other.name)).countP (shares read.owner read.table) :=
        List.countP_pos_iff.mpr ⟨read, hstays, by simp [shares]⟩
      have hreaders := (hcounted.readers_eq hrevision).1
      rw [show shares read.owner read.table other = true by simp [shares, hsame], Bool.toNat_true] at hcount
      unfold readersOf at hreaders
      refine ⟨{ revision with readers := revision.readers - 1 }, ?_, hvalue, hrefreshed⟩
      rw [← hsame.1, ← hsame.2, hrevision, Option.bind_some, if_neg (by omega)]
      exact put_self _ _ _
    · exact ⟨revision, (put_other _ hsame).trans hrevision, hvalue, hrefreshed⟩

/-- The name of a read is its own. -/
theorem Counted.find (h : s.Counted) {read : RecordRead Session Table Name} (hread : read ∈ s.reads) :
    s.reads.find? (·.name = read.name) = some read := by
  obtain ⟨found, hfound⟩ := Option.isSome_iff_exists.mp
    (List.find?_isSome.mpr ⟨read, hread, by simp⟩ : (s.reads.find? (·.name = read.name)).isSome)
  have hname : found.name = read.name := by simpa using List.find?_some hfound
  rw [hfound, List.inj_on_of_nodup_map h.distinct (List.mem_of_find?_eq_some hfound) hread hname]

theorem Seen.current (h : Seen s read w r) (hcounted : s.Counted) :
    s.current read.name = some (decide (2 ^ 64 ∣ w) && (read.locked || decide (2 ^ 64 ∣ r))) := by
  obtain ⟨revision, hrevision, hvalue, hrefreshed⟩ := h.entry
  have hwrap : ∀ (n : UInt64) (k : Nat), n = n + UInt64.ofNat k ↔ 2 ^ 64 ∣ k := by
    intro n k
    rw [eq_comm, UInt64.add_eq_left, ← UInt64.toNat_inj, UInt64.toNat_ofNat', UInt64.toNat_zero,
        Nat.dvd_iff_mod_eq_zero]
  rw [State.current, hcounted.find h.mem, Option.map_some, hrevision]
  dsimp only
  simp only [hvalue, hrefreshed, hwrap]

end Reads

/-! ### What happens -/

section Runs
variable {Session Connection Table Name : Type} [DecidableEq Session] [DecidableEq Connection] [DecidableEq Table]
  [DecidableEq Name] (s : State Session Connection Table Name)

/-- `RecordWritten`. -/
def recordWritten (connection : Connection) (table : Table) : State Session Connection Table Name :=
  match s.sessions with
  | [] => s
  | (session, own) :: _ =>
    if own = connection then
      s.put session table ((s.tables session table).map fun revision =>
          { revision with value := revision.value + 1 })
    else s

/-- `RefreshRecordReads`. -/
def refreshRecordReads (table : Option Table) : State Session Connection Table Name :=
  match s.sessions with
  | [] => s
  | (session, _) :: _ =>
    { s with
      tables := Function.update s.tables session fun id =>
        if table = none ∨ table = some id then
          (s.tables session id).map fun revision => { revision with refreshed := revision.refreshed + 1 }
        else s.tables session id }

def step : Event Session Connection Table Name → State Session Connection Table Name
  | .attach session connection =>
    if s.sessions.any (·.1 = session) then s else { s with sessions := (session, connection) :: s.sessions }
  | .detach => { s with sessions := s.sessions.tail }
  | .construct name table locked => s.construct name table locked
  | .destruct name => s.destruct name
  | .recordWritten connection table => s.recordWritten connection table
  | .refreshRecordReads table => s.refreshRecordReads table

def run (events : List (Event Session Connection Table Name)) : State Session Connection Table Name :=
  events.foldl step s

/-! ### What a read should have seen -/

/-- A write of the session's own, to the table. -/
def writes (owner : Session) (table : Table) (s : State Session Connection Table Name) :
    Event Session Connection Table Name → Bool
  | .recordWritten connection id => s.sessions.head? = some (owner, connection) ∧ id = table
  | _ => false

/-- A refresh of the session's, of the table or of all. -/
def refreshes (owner : Session) (table : Table) (s : State Session Connection Table Name) :
    Event Session Connection Table Name → Bool
  | .refreshRecordReads id => s.sessions.head?.map Prod.fst = some owner ∧ (id = none ∨ id = some table)
  | _ => false

/-- How many of the events are of a kind. -/
def count (kind : State Session Connection Table Name → Event Session Connection Table Name → Bool) :
    State Session Connection Table Name → List (Event Session Connection Table Name) → Nat
  | _, [] => 0
  | s, event :: rest => (kind s event).toNat + count kind (s.step event) rest

variable {s}

theorem Counted.step (h : s.Counted) (event : Event Session Connection Table Name) : (s.step event).Counted := by
  cases event with
  | attach session connection =>
    unfold State.step
    dsimp only
    split
    · exact h
    · exact h.keep rfl fun _ _ => rfl
  | detach => exact h.keep rfl fun _ _ => rfl
  | construct name table locked => exact h.construct name table locked
  | destruct name => exact h.destruct name
  | recordWritten connection table =>
    unfold State.step State.recordWritten
    dsimp only
    split
    · exact h
    next session own rest hsessions =>
      split
      · refine h.keep rfl fun session' table' => ?_
        by_cases hsame : session' = session ∧ table' = table
        · obtain ⟨rfl, rfl⟩ := hsame
          rw [put_self, Option.map_map]
          rfl
        · rw [put_other _ hsame]
      · exact h
  | refreshRecordReads table =>
    unfold State.step State.refreshRecordReads
    dsimp only
    split
    · exact h
    next session connection rest hsessions =>
      refine h.keep rfl fun session' table' => ?_
      dsimp only
      by_cases hsame : session' = session
      · subst hsame
        rw [Function.update_self]
        split
        · rw [Option.map_map]
          rfl
        · rfl
      · rw [Function.update_of_ne hsame]

theorem Counted.run (h : s.Counted) (events : List (Event Session Connection Table Name)) :
    (s.run events).Counted := by
  induction events generalizing s with
  | nil => exact h
  | cons event rest ih => exact ih (h.step event)

theorem Seen.step {read : RecordRead Session Table Name} {w r : Nat} (h : Seen s read w r) (hcounted : s.Counted)
    (event : Event Session Connection Table Name) (hevent : event ≠ .destruct read.name) :
    Seen (s.step event) read (w + (writes read.owner read.table s event).toNat)
      (r + (refreshes read.owner read.table s event).toNat) := by
  cases event with
  | attach session connection =>
    unfold State.step
    dsimp only
    split
    · exact h
    · exact ⟨h.mem, h.entry⟩
  | detach => exact ⟨h.mem, h.entry⟩
  | construct name table locked => exact h.construct name table locked
  | destruct name => exact h.destruct hcounted fun heq => hevent (congrArg _ heq)
  | recordWritten connection table =>
    obtain ⟨revision, hrevision, hvalue, hrefreshed⟩ := h.entry
    unfold State.step State.recordWritten writes
    dsimp only
    split
    next hsessions => simpa [hsessions, refreshes] using h
    next session own rest hsessions =>
      rw [hsessions, List.head?_cons]
      by_cases hown : own = connection
      · subst hown
        rw [if_pos rfl]
        refine ⟨h.mem, ?_⟩
        by_cases hsame : read.owner = session ∧ read.table = table
        · obtain ⟨rfl, rfl⟩ := hsame
          refine ⟨{ revision with value := revision.value + 1 }, ?_, ?_, by simpa [refreshes] using hrefreshed⟩
          · rw [put_self, hrevision, Option.map_some]
          · simp [hvalue, UInt64.add_assoc, UInt64.ofNat_add]
        · refine ⟨revision, (put_other _ hsame).trans hrevision, ?_, by simpa [refreshes] using hrefreshed⟩
          have hnot : ¬ (session = read.owner ∧ table = read.table) := fun heq => hsame ⟨heq.1.symm, heq.2.symm⟩
          simpa [hnot] using hvalue
      · rw [if_neg hown]
        simpa [hown, refreshes] using h
  | refreshRecordReads table =>
    obtain ⟨revision, hrevision, hvalue, hrefreshed⟩ := h.entry
    unfold State.step State.refreshRecordReads refreshes
    dsimp only
    split
    next hsessions => simpa [hsessions, writes] using h
    next session connection rest hsessions =>
      rw [hsessions, List.head?_cons]
      refine ⟨h.mem, ?_⟩
      dsimp only
      by_cases hsame : read.owner = session
      · subst hsame
        rw [Function.update_self]
        by_cases htable : table = none ∨ table = some read.table
        · refine ⟨{ revision with refreshed := revision.refreshed + 1 }, ?_, by simpa [writes] using hvalue, ?_⟩
          · rw [if_pos htable, hrevision, Option.map_some]
          · simp [hrefreshed, htable, UInt64.add_assoc, UInt64.ofNat_add]
        · refine ⟨revision, ?_, by simpa [writes] using hvalue, ?_⟩
          · rw [if_neg htable, hrevision]
          · simpa [htable] using hrefreshed
      · refine ⟨revision, ?_, by simpa [writes] using hvalue, ?_⟩
        · rw [Function.update_of_ne hsame, hrevision]
        · simpa [Ne.symm hsame] using hrefreshed

theorem Seen.run {read : RecordRead Session Table Name} {w r : Nat} (h : Seen s read w r) (hcounted : s.Counted)
    (events : List (Event Session Connection Table Name)) (hevents : .destruct read.name ∉ events) :
    Seen (s.run events) read (w + count (writes read.owner read.table) s events)
      (r + count (refreshes read.owner read.table) s events) := by
  induction events generalizing s w r with
  | nil => exact h
  | cons event rest ih =>
    rw [List.mem_cons, not_or] at hevents
    have hrest := ih (h.step hcounted event (Ne.symm hevents.1)) (hcounted.step event) hevents.2
    rw [Nat.add_assoc, Nat.add_assoc] at hrest
    exact hrest

/-- A read has seen everything when it is made. -/
theorem seen_construct {owner : Session} {connection : Connection} (name : Name) (table : Table) (locked : Bool)
    (hsession : s.sessions.head? = some (owner, connection)) (hname : s.current name = none) :
    ∃ read : RecordRead Session Table Name, read.name = name ∧ read.owner = owner ∧ read.table = table ∧
      read.locked = locked ∧ Seen (s.step (.construct name table locked)) read 0 0 := by
  obtain ⟨rest, hsessions⟩ := List.head?_eq_some_iff.mp hsession
  have hfresh : ¬ s.reads.any (·.name = name) = true := by
    rw [State.current, Option.map_eq_none_iff, List.find?_eq_none] at hname
    simpa using hname
  unfold State.step State.construct
  rw [hsessions]
  dsimp only
  rw [if_neg hfresh]
  exact ⟨_, rfl, rfl, rfl, rfl, List.mem_cons_self, _, put_self _ _ _, by simp, by simp⟩

/-- The same write, again and again. -/
theorem count_replicate {kind : State Session Connection Table Name → Event Session Connection Table Name → Bool}
    {connection : Connection} {table : Table} {k : Nat}
    (hkind : ∀ s' : State Session Connection Table Name, s'.sessions = s.sessions →
      (kind s' (.recordWritten connection table)).toNat = k) (n : Nat) :
    count kind s (List.replicate n (.recordWritten connection table)) = n * k := by
  induction n generalizing s with
  | zero => rw [Nat.zero_mul, List.replicate_zero, count]
  | succ n ih =>
    have hstill : (s.step (.recordWritten connection table)).sessions = s.sessions := by
      unfold State.step State.recordWritten
      dsimp only
      split
      · rfl
      · split <;> rfl
    rw [List.replicate_succ, count, hkind s rfl, ih fun s' h => hkind s' (h.trans hstill), Nat.succ_mul, Nat.add_comm]

/-- **A read is current while nothing it should have seen has happened**: unless its session's connection has
written the table, or its session's reads of it have been refreshed and it is not locked, so many times that the
counter is where it was. Another read's going makes no difference. -/
theorem current_since (before after : List (Event Session Connection Table Name)) (name : Name) (owner : Session)
    (connection : Connection) (table : Table) (locked : Bool)
    (hsession : (initial.run before).sessions.head? = some (owner, connection))
    (hname : (initial.run before).current name = none) (hafter : .destruct name ∉ after) :
    let made := (initial.run before).step (.construct name table locked)
    let written := count (writes owner table) made after
    let refreshed := count (refreshes owner table) made after
    (made.run after).current name = some (decide (2 ^ 64 ∣ written) && (locked || decide (2 ^ 64 ∣ refreshed))) ∧
      (written < 2 ^ 64 → refreshed < 2 ^ 64 →
        ((made.run after).current name = some true ↔ written = 0 ∧ (locked = true ∨ refreshed = 0))) ∧
      ∀ other, other ≠ name → (made.run (after ++ [.destruct other])).current name =
          (made.run after).current name := by
  intro made written refreshed
  have hcounted : made.Counted := (counted_initial.run before).step _
  obtain ⟨read, rfl, rfl, rfl, rfl, hseen⟩ := seen_construct name table locked hsession hname
  have hrun := hseen.run hcounted after hafter
  rw [Nat.zero_add, Nat.zero_add] at hrun
  have hcurrent : _ = some (decide (2 ^ 64 ∣ written) && (read.locked || decide (2 ^ 64 ∣ refreshed))) :=
    hrun.current (hcounted.run after)
  refine ⟨hcurrent, fun hwritten hrefreshed => ?_, fun other hother => ?_⟩
  · have hnone : ∀ {n : Nat}, n < 2 ^ 64 → (2 ^ 64 ∣ n ↔ n = 0) := fun h =>
      ⟨fun hdvd => Nat.eq_zero_of_dvd_of_lt hdvd h, fun h => h ▸ Nat.dvd_zero _⟩
    rw [hcurrent]
    simp only [hnone hwritten, hnone hrefreshed, Option.some.injEq, Bool.and_eq_true, Bool.or_eq_true,
        decide_eq_true_eq]
  · have hstep := hrun.step (hcounted.run after) (.destruct other) fun heq => hother (by cases heq; rfl)
    rw [hcurrent, run, List.foldl_append]
    exact hstep.current ((hcounted.run after).step _)

end Runs

theorem current_since_written :
    (State.run ((initial : State Nat Nat Nat Nat).run [.attach 0 0, .construct 1 5 false] |>.step
        (.construct 0 5 true))
      [.refreshRecordReads none, .destruct 1]).current 0 = some true := by
  have h := current_since ([.attach 0 0, .construct 1 5 false] : List (Event Nat Nat Nat Nat))
    [.refreshRecordReads none, .destruct 1] 0 0 0 5 true (by decide) (by decide) (by simp)
  exact (h.2.1 (by decide) (by decide)).mpr (by decide)

theorem current_repeated {n : Nat} (h : 2 ^ 64 ∣ n) :
    ((initial : State Nat Nat Nat Nat).run ([.attach 0 0, .construct 0 5 false] ++
      List.replicate n (.recordWritten 0 5))).current 0 = some true := by
  obtain ⟨read, hname, howner, htable, -, hseen⟩ :=
    seen_construct (s := (initial : State Nat Nat Nat Nat).run [.attach 0 0]) 0 5 false (rfl : _ = some (0, 0)) rfl
  have hcounted : (((initial : State Nat Nat Nat Nat).run [.attach 0 0]).step (.construct 0 5 false)).Counted :=
    (counted_initial.run [.attach 0 0]).step _
  have hsessions : (((initial : State Nat Nat Nat Nat).run [.attach 0 0]).step (.construct 0 5 false)).sessions =
      [(0, 0)] := rfl
  have hrun := hseen.run hcounted (List.replicate n (.recordWritten 0 5)) fun hmem => by
    cases List.eq_of_mem_replicate hmem
  rw [howner, htable,
    count_replicate (k := 1) (fun s h => by simp [writes, h, hsessions]) n,
    count_replicate (k := 0) (fun s h => by simp [refreshes]) n] at hrun
  have hcurrent := hrun.current (hcounted.run _)
  rw [hname, Nat.zero_add, Nat.mul_one, Nat.mul_zero, decide_eq_true h, decide_eq_true (Nat.dvd_zero _), Bool.or_true]
    at hcurrent
  rw [run, List.foldl_append]
  exact hcurrent

/-- A counter that has gone around is where it was. -/
theorem current_around :
    ((initial : State Nat Nat Nat Nat).run ([.attach 0 0, .construct 0 5 false] ++
      List.replicate (2 ^ 64) (.recordWritten 0 5))).current 0 = some true :=
  current_repeated (Nat.dvd_refl _)

end State
end Agiru.RecordChanges
