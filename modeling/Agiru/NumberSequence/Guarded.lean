import Agiru.NumberSequence.Storage

/-! What the locks of number sequences guard.

A session that reads a sequence holds its identity's lock, which no session that writes the
identity's catalogue rows shares, and its allocation lock, which no other session holds.
So the file it read from is the file it writes to, and holds what it read. -/
namespace Agiru.NumberSequence
open Undo Ranges

variable {n : Nat} {hash : Identity → BitVec 64}
variable {base : Nat → Option Storage} {id : Nat} {identity : Identity}
variable {effects : List Effect}

def HasLock (s : State n) (i : Fin n) (key : BitVec 64) (exclusive : Bool) : Prop :=
  .lock key exclusive ∈ done (s.sessions i).log

/-- A session lock. -/
def Holds (s : State n) (i : Fin n) (key : BitVec 64) : Prop := ∃ count, s.held key = some (i, count)

theorem Holds.unique {s : State n} {i j : Fin n} {key : BitVec 64} (hi : Holds s i key)
    (hj : Holds s j key) : i = j := by
  obtain ⟨a, ha⟩ := hi
  obtain ⟨b, hb⟩ := hj
  exact congrArg Prod.fst (Option.some.inj (ha.symm.trans hb))

/-- A sequence of the catalogue has a file, which it shares with no other. -/
def StorageOk (s : State n) (id : Nat) (storage : Storage) : Prop :=
  ∃ file, s.files[storage.node]? = some file ∧ file.id = id ∧
    storage.properties = .created file.increment

/-- What an effect needs of those before it: the exclusive lock of its identity. -/
def needs (hash : Identity → BitVec 64) (s : State n) : Effect → List Effect → Prop
  | .lock .., _ => True
  | .entry identity entryId, before => .lock (identityKey hash identity) true ∈ before ∧
    ∀ id, entryId = some id → s.made[id]? = some identity
  | .storage id storage, before =>
    (∃ identity, s.made[id]? = some identity ∧ .lock (identityKey hash identity) true ∈ before) ∧
      ∀ row, storage = some row → StorageOk s id row

/-- What holds in the block of a call. -/
structure InBlock (hash : Identity → BitVec 64) (s : State n) (i : Fin n) (op : Operation)
    (identity : Identity) : Prop where
  exclusive : op.mutation = true → HasLock s i (identityKey hash identity) true
  shared : op.allocation = true → HasLock s i (identityKey hash identity) false
  holds : op.allocation = true → Holds s i (allocationKey hash identity)

/-- What holds at each statement of a call. -/
def AtPc (hash : Identity → BitVec 64) (s : State n) (i : Fin n) : Pc → Prop
  | .lockAllocation op identity => op.allocation = true ∧ op.mutation = false ∧
    HasLock s i (identityKey hash identity) false
  | .find op identity => InBlock hash s i op identity
  | .found op identity entryId => InBlock hash s i op identity ∧
    ∀ id, entryId = some id → s.made[id]? = some identity
  | .create _ identity id _ step => HasLock s i (identityKey hash identity) true ∧
    s.made[id]? = some identity ∧ step ≠ 0
  | .deleteEntry _ identity _ => HasLock s i (identityKey hash identity) true
  | .readLast _ identity id count properties => HasLock s i (identityKey hash identity) false ∧
    Holds s i (allocationKey hash identity) ∧ s.made[id]? = some identity ∧ 1 ≤ count ∧
    ∃ storage, s.storage i id = some storage ∧ storage.properties = properties
  | .setLast _ identity id count properties first =>
    HasLock s i (identityKey hash identity) false ∧ Holds s i (allocationKey hash identity) ∧
    s.made[id]? = some identity ∧ 1 ≤ count ∧
    ∃ storage file, s.storage i id = some storage ∧ storage.properties = properties ∧
      s.files[storage.node]? = some file ∧
      first = firstValue properties.seqincrement file.lastValue file.isCalled
  | _ => True

/-- The range that a call has reserved and not yet returned. -/
def Pc.range : Pc → Option (Nat × Range)
  | .blockEnd _ _ row | .unlock _ _ row | .leave row => row.bind Row.range
  | _ => none

structure SessionOk (hash : Identity → BitVec 64) (s : State n) (i : Fin n) : Prop where
  sound : Sound (needs hash s) (done (s.sessions i).log)
  pc : AtPc hash s i (s.sessions i).pc

/-- The ranges that were reserved of a file. -/
def State.ofNode (s : State n) (node : Nat) : List Range :=
  (s.reserved.filter fun e => e.1 = node).map Prod.snd

/-- A file goes on where the ranges reserved of it end. -/
structure FileOk (s : State n) (node : Nat) (file : File) : Prop where
  increment : file.increment ≠ 0
  chained : Chained file.seed file.increment (s.ofNode node)
  next : following file.seed (s.ofNode node) = firstValue file.increment file.lastValue file.isCalled

/-- A range whose numbers are `bigint`s. -/
def RangeOk (r : Range) : Prop :=
  1 ≤ r.count ∧ (Properties.created r.step).exceeded r.first (finalValue r.first r.count r.step) = false

/-- A range that is reserved and not yet returned is no other call's. -/
structure Pending (s : State n) (i : Fin n) (e : Nat × Range) : Prop where
  reserved : e ∈ s.reserved
  fresh : e ∉ s.handed
  own : ∀ j, j ≠ i → (s.sessions j).pc.range ≠ some e

structure Inv (hash : Identity → BitVec 64) (s : State n) : Prop where
  session : ∀ i, SessionOk hash s i
  exclusive : ∀ i j key, i ≠ j → HasLock s i key true → ∀ exclusive, ¬ HasLock s j key exclusive
  entries : ∀ identity id, s.entries identity = some id → s.made[id]? = some identity
  storages : ∀ id storage, s.storages id = some storage → StorageOk s id storage
  files : ∀ (node : Nat) file, s.files[node]? = some file → FileOk s node file
  reserved : ∀ e ∈ s.reserved, e.1 < s.files.length ∧ RangeOk e.2
  pending : ∀ i e, (s.sessions i).pc.range = some e → Pending s i e
  handed : ∀ e ∈ s.handed, e ∈ s.reserved
  once : s.handed.Nodup

/-! ### The registry and the catalogue under a transaction's writes -/

theorem storagesOf_congr {base' : Nat → Option Storage} (h : base' id = base id)
    (effects : List Effect) : storagesOf base' effects id = storagesOf base effects id := by
  induction effects with
  | nil => exact h
  | cons e before ih =>
    cases e with
    | lock key exclusive | entry identity entryId => exact ih
    | storage id' storage =>
      simp only [storagesOf]
      split
      · rfl
      · exact ih

theorem storagesOf_of_not_mem
    (h : ∀ storage, .storage id storage ∉ effects) : storagesOf base effects id = base id := by
  induction effects with
  | nil => rfl
  | cons e before ih =>
    have hbefore := ih fun storage hmem => h storage (List.mem_cons_of_mem _ hmem)
    cases e with
    | lock key exclusive | entry identity entryId => exact hbefore
    | storage id' storage =>
      have hne : id' ≠ id := by
        rintro rfl
        exact h storage (List.mem_cons_self ..)
      simp only [storagesOf]
      rw [if_neg hne]
      exact hbefore

/-- What is seen was written, or committed. -/
theorem storagesOf_some {storage : Storage} (h : storagesOf base effects id = some storage) :
    .storage id (some storage) ∈ effects ∨ base id = some storage := by
  induction effects with
  | nil => exact .inr h
  | cons e before ih =>
    cases e with
    | lock key exclusive | entry identity entryId => exact (ih h).imp_left (List.mem_cons_of_mem _)
    | storage id' storage' =>
      simp only [storagesOf] at h
      split at h
      · rename_i heq
        subst heq h
        exact .inl (List.mem_cons_self ..)
      · exact (ih h).imp_left (List.mem_cons_of_mem _)

theorem entriesOf_some {base : Identity → Option Nat} (h : entriesOf base effects identity = some id) :
    .entry identity (some id) ∈ effects ∨ base identity = some id := by
  induction effects with
  | nil => exact .inr h
  | cons e before ih =>
    cases e with
    | lock key exclusive | storage id' storage => exact (ih h).imp_left (List.mem_cons_of_mem _)
    | entry identity' entryId =>
      simp only [entriesOf] at h
      split at h
      · rename_i heq
        subst heq h
        exact .inl (List.mem_cons_self ..)
      · exact (ih h).imp_left (List.mem_cons_of_mem _)

section
variable {s : State n} {i : Fin n}

/-- A session's own catalogue row is written under its identity's exclusive lock. -/
theorem SessionOk.written (h : SessionOk hash s i) {storage : Option Storage}
    (hmem : .storage id storage ∈ done (s.sessions i).log) :
    (∃ identity, s.made[id]? = some identity ∧ HasLock s i (identityKey hash identity) true) ∧
      ∀ row, storage = some row → StorageOk s id row := by
  obtain ⟨before, hsuffix, ⟨identity, hmade, hlock⟩, hrow⟩ := h.sound.needs_of_mem hmem
  exact ⟨⟨identity, hmade, hsuffix.subset hlock⟩, hrow⟩

theorem Inv.entry_made (h : Inv hash s) (hentry : s.entry i identity = some id) : s.made[id]? = some identity := by
  rcases entriesOf_some hentry with hmem | hcommitted
  · obtain ⟨before, -, -, hmade⟩ := (h.session i).sound.needs_of_mem hmem
    exact hmade id rfl
  · exact h.entries identity id hcommitted

theorem Inv.storage_ok (h : Inv hash s) {storage : Storage}
    (hstorage : s.storage i id = some storage) : StorageOk s id storage := by
  rcases storagesOf_some hstorage with hmem | hcommitted
  · exact ((h.session i).written hmem).2 storage rfl
  · exact h.storages id storage hcommitted

end

/-! ### What a step keeps of a session that does not take it -/

/-- The sequence whose next value a session is about to write. -/
def Pc.setting : Pc → Option Nat
  | .setLast _ _ id .. => some id
  | _ => none

structure Kept (hash : Identity → BitVec 64) (s t : State n) (j : Fin n) : Prop where
  session : t.sessions j = s.sessions j
  made : ∀ (id : Nat) identity, s.made[id]? = some identity → t.made[id]? = some identity
  files : ∀ (node : Nat) file, s.files[node]? = some file → ∃ file', t.files[node]? = some file' ∧
    file'.id = file.id ∧ file'.increment = file.increment
  holds : ∀ key, Holds s j key → Holds t j key
  storages : ∀ (id : Nat) identity, s.made[id]? = some identity →
    HasLock s j (identityKey hash identity) false → t.storages id = s.storages id
  place : ∀ id, (s.sessions j).pc.setting = some id → ∀ (node : Nat) file,
    s.files[node]? = some file → file.id = id → t.files[node]? = some file

section
variable {s t : State n} {j : Fin n}

theorem Kept.storageOk (h : Kept hash s t j) {storage : Storage}
    (hok : StorageOk s id storage) : StorageOk t id storage := by
  obtain ⟨file, hfile, hid, hproperties⟩ := hok
  obtain ⟨file', hfile', hid', hincrement⟩ := h.files _ file hfile
  exact ⟨file', hfile', hid'.trans hid, by rw [hincrement, hproperties]⟩

theorem Kept.hasLock (h : Kept hash s t j) {key : BitVec 64} {exclusive : Bool} :
    HasLock t j key exclusive ↔ HasLock s j key exclusive := by
  rw [HasLock, h.session, HasLock]

theorem Kept.needs (h : Kept hash s t j) (e : Effect) (before : List Effect)
    (hneeds : needs hash s e before) : needs hash t e before := by
  cases e with
  | lock key exclusive => trivial
  | entry identity entryId => exact ⟨hneeds.1, fun id hid => h.made id identity (hneeds.2 id hid)⟩
  | storage id storage =>
    obtain ⟨⟨identity, hmade, hlock⟩, hrow⟩ := hneeds
    exact ⟨⟨identity, h.made id identity hmade, hlock⟩, fun row heq => h.storageOk (hrow row heq)⟩

theorem Kept.inBlock (h : Kept hash s t j) {op : Operation}
    (hblock : InBlock hash s j op identity) : InBlock hash t j op identity :=
  ⟨fun hop => h.hasLock.mpr (hblock.exclusive hop), fun hop => h.hasLock.mpr (hblock.shared hop),
    fun hop => h.holds _ (hblock.holds hop)⟩

theorem Kept.storage (h : Kept hash s t j)
    (hmade : s.made[id]? = some identity) (hlock : HasLock s j (identityKey hash identity) false) :
    t.storage j id = s.storage j id := by
  rw [State.storage, State.storage, h.session]
  exact storagesOf_congr (h.storages id identity hmade hlock) _

theorem Kept.sessionOk (h : Kept hash s t j) (hinv : Inv hash s) : SessionOk hash t j where
  sound := by
    rw [h.session]
    exact (hinv.session j).sound.mono h.needs
  pc := by
    have hat := (hinv.session j).pc
    rw [h.session]
    cases hpc : (s.sessions j).pc with
    | lockAllocation op identity =>
      rw [hpc] at hat
      exact ⟨hat.1, hat.2.1, h.hasLock.mpr hat.2.2⟩
    | find op identity =>
      rw [hpc] at hat
      exact h.inBlock hat
    | found op identity entryId =>
      rw [hpc] at hat
      exact ⟨h.inBlock hat.1, fun id hid => h.made id identity (hat.2 id hid)⟩
    | create op identity id seed step =>
      rw [hpc] at hat
      exact ⟨h.hasLock.mpr hat.1, h.made id identity hat.2.1, hat.2.2⟩
    | deleteEntry op identity id =>
      rw [hpc] at hat
      exact h.hasLock.mpr hat
    | readLast op identity id count properties =>
      rw [hpc] at hat
      obtain ⟨hlock, hholds, hmade, hcount, storage, hstorage, hproperties⟩ := hat
      refine ⟨h.hasLock.mpr hlock, h.holds _ hholds, h.made id identity hmade, hcount, storage, ?_, hproperties⟩
      rw [h.storage hmade hlock, hstorage]
    | setLast op identity id count properties first =>
      rw [hpc] at hat
      obtain ⟨hlock, hholds, hmade, hcount, storage, file, hstorage, hproperties, hfile, hfirst⟩ := hat
      refine ⟨h.hasLock.mpr hlock, h.holds _ hholds, h.made id identity hmade, hcount, storage, file,
        ?_, hproperties, ?_, hfirst⟩
      · rw [h.storage hmade hlock, hstorage]
      · obtain ⟨file', hfile', hid, -⟩ := hinv.storage_ok hstorage
        rw [hfile] at hfile'
        obtain rfl := Option.some.inj hfile'
        exact h.place id (by rw [hpc]; rfl) _ file hfile hid
    | _ => trivial

end

/-! ### A statement of one session -/

section Put
variable {s : State n} {i : Fin n} {b : Session} {g : BitVec 64 → Option (Fin n × Nat)}

/-- The state after a statement that changes its own session and the session locks. -/
def State.moved (s : State n) (i : Fin n) (session : Session)
    (held : BitVec 64 → Option (Fin n × Nat)) : State n :=
  {s.put i session with held}

theorem moved_own : (s.moved i b g).sessions i = b := by
  simp only [State.moved, State.put, Function.update_self]

theorem moved_other {j : Fin n} (hj : j ≠ i) : (s.moved i b g).sessions j = s.sessions j := by
  simp only [State.moved, State.put, Function.update_of_ne hj]

theorem moved_kept {j : Fin n} (hj : j ≠ i)
    (hholds : ∀ k, k ≠ i → ∀ key, Holds s k key → ∃ count, g key = some (k, count)) :
    Kept hash s (s.moved i b g) j where
  session := moved_other hj
  made _ _ hmade := hmade
  files _ file hfile := ⟨file, hfile, rfl, rfl⟩
  holds := hholds j hj
  storages _ _ _ _ := rfl
  place _ _ _ _ hfile _ := hfile

theorem Inv.put (h : Inv hash s) (hsound : Sound (needs hash s) (done b.log))
    (hlocks : ∀ key exclusive, .lock key exclusive ∈ done b.log →
      HasLock s i key exclusive ∨ s.Free i key exclusive)
    (hrange : ∀ e, b.pc.range = some e → Pending s i e)
    (hholds : ∀ k, k ≠ i → ∀ key, Holds s k key → ∃ count, g key = some (k, count))
    (hpc : AtPc hash (s.moved i b g) i b.pc) : Inv hash (s.moved i b g) where
  session j := by
    by_cases hj : j = i
    · subst hj
      refine ⟨?_, ?_⟩
      · rw [moved_own]
        exact hsound
      · rw [moved_own]
        exact hpc
    · exact (moved_kept hj hholds).sessionOk h
  exclusive j k key hjk hlock exclusive hother := by
    by_cases hj : j = i
    · subst hj
      rw [HasLock, moved_own] at hlock
      rw [HasLock, moved_other (Ne.symm hjk)] at hother
      rcases hlocks key true hlock with hold | hfree
      · exact h.exclusive j k key hjk hold exclusive hother
      · obtain ⟨-, hnone, hshared⟩ := hfree k (Ne.symm hjk)
        cases exclusive with
        | true => exact hnone hother
        | false => exact hshared rfl hother
    · rw [HasLock, moved_other hj] at hlock
      by_cases hk : k = i
      · subst hk
        rw [HasLock, moved_own] at hother
        rcases hlocks key exclusive hother with hold | hfree
        · exact h.exclusive j k key hjk hlock exclusive hold
        · exact (hfree j hj).2.1 hlock
      · rw [HasLock, moved_other hk] at hother
        exact h.exclusive j k key hjk hlock exclusive hother
  entries := h.entries
  storages := h.storages
  files node file hfile := ⟨(h.files node file hfile).1, (h.files node file hfile).2, (h.files node file hfile).3⟩
  reserved := h.reserved
  pending j e hj := by
    have hpending : Pending s j e := by
      by_cases hji : j = i
      · subst hji
        rw [moved_own] at hj
        exact hrange e hj
      · rw [moved_other hji] at hj
        exact h.pending j e hj
    refine ⟨hpending.reserved, hpending.fresh, fun k hk hsame => ?_⟩
    by_cases hki : k = i
    · subst hki
      rw [moved_own] at hsame
      rw [moved_other (Ne.symm hk)] at hj
      exact (hrange e hsame).own j (Ne.symm hk) hj
    · rw [moved_other hki] at hsame
      exact hpending.own k hk hsame
  handed := h.handed
  once := h.once

/-- A statement after which the effects of the session are some of those it had. -/
theorem Inv.quiet (h : Inv hash s) (hlog : done b.log <:+ done (s.sessions i).log)
    (hrange : b.pc.range = none ∨ b.pc.range = (s.sessions i).pc.range)
    (hholds : ∀ k, k ≠ i → ∀ key, Holds s k key → ∃ count, g key = some (k, count))
    (hpc : AtPc hash (s.moved i b g) i b.pc) : Inv hash (s.moved i b g) := by
  refine h.put ((h.session i).sound.suffix hlog) (fun key exclusive hmem => .inl (hlog.subset hmem))
    (fun e he => ?_) hholds hpc
  rcases hrange with hnone | hsame
  · rw [hnone] at he
    cases he
  · exact h.pending i e (hsame ▸ he)

end Put

end Agiru.NumberSequence
