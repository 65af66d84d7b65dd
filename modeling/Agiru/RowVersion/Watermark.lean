import Agiru.RowVersion.Storage

/-! The minimum row version is a safe low-water mark.

A version that a transaction was handed stands over a fence of the same transaction that
is no greater and is undone no earlier (`needs`). No fence is below a mark that was
found, and none is taken while a minimum is read: both hold the publication lock. -/
namespace Agiru.RowVersion
open Undo

variable {n : Nat}

/-! ### Fences in `pg_locks` -/

theorem rowOf_fence {f : Nat} (hpos : 1 ≤ f) (hle : f ≤ maxValue) :
    (rowOf (-(f : Int))).isFence = true ∧ (rowOf (-(f : Int))).value = f := by
  have hmax : maxValue = 9223372036854775807 := rfl
  have hword : ((-(f : Int)) % 2 ^ 64).toNat = 2 ^ 64 - f := by omega
  have hlow : (2 ^ 64 - f) % 2 ^ 32 < 2 ^ 32 := Nat.mod_lt _ (by decide)
  have hjoin : ((2 ^ 64 - f) / 2 ^ 32) <<< 32 ||| (2 ^ 64 - f) % 2 ^ 32 = 2 ^ 64 - f := by
    rw [← Nat.shiftLeft_add_eq_or_of_lt hlow, Nat.shiftLeft_eq]
    omega
  constructor
  · simp only [LockRow.isFence, rowOf, hword, decide_true, Bool.true_and, decide_eq_true_eq]
    omega
  · simp only [LockRow.value, rowOf, hword, hjoin, toBigint]
    rw [Nat.mod_eq_of_lt (by omega), if_neg (by omega)]
    omega

theorem mem_locks {session : Session} {key : Int} :
    key ∈ session.locks ↔ .lock key ∈ done session.log := by
  unfold Session.locks
  rw [List.mem_filterMap]
  constructor
  · rintro ⟨effect, hmem, heq⟩
    cases effect with
    | lock key' =>
      obtain rfl := Option.some.inj heq
      exact hmem
    | setting tag value | version value => cases heq
  · exact fun h => ⟨.lock key, h, rfl⟩

theorem mem_versions {session : Session} {value : Nat} :
    value ∈ session.versions ↔ .version value ∈ done session.log := by
  unfold Session.versions
  rw [List.mem_filterMap]
  constructor
  · rintro ⟨effect, hmem, heq⟩
    cases effect with
    | lock key | setting tag value => cases heq
    | version value' =>
      obtain rfl := Option.some.inj heq
      exact hmem
  · exact fun h => ⟨.version value, h, rfl⟩

/-! ### What holds in every state reached -/

/-- What an effect needs of those before it: a setting its fence, a version a fence that is
no greater. -/
def needs : Effect → List Effect → Prop
  | .lock _, _ => True
  | .setting _ value, before => .lock (-(value : Int)) ∈ before
  | .version value, before => ∃ f : Nat, .lock (-(f : Int)) ∈ before ∧ f ≤ value

/-- The version that a call has drawn and not yet returned. -/
def Pc.pending : Pc → Option Nat
  | .nextFence value | .nextSet value | .nextUnlock value | .nextReturn value => some value
  | _ => none

def Holds (s : State n) (i : Fin n) : Prop := ∃ count, s.global = some (i, count)

/-- A fence of a session. -/
def Fence (s : State n) (i : Fin n) (f : Nat) : Prop := .lock (-(f : Int)) ∈ done (s.sessions i).log

/-- What holds at each statement of a call. -/
def AtPc (s : State n) (i : Fin n) : Pc → Prop
  | .idle | .nextLock => True
  | .nextFast => ∃ f, Fence s i f
  | .nextValue => Holds s i
  | .nextFence value => Holds s i ∧ 1 ≤ value ∧ ∀ m ∈ s.marks, m ≤ value
  | .nextSet value | .nextUnlock value => Holds s i ∧ Fence s i value
  | .nextReturn value => Fence s i value
  | .minLock before => ∀ m ∈ before, m ∈ s.marks
  | .minRead before => Holds s i ∧ ∀ m ∈ before, m ∈ s.marks
  | .minLast before => Holds s i ∧ (∀ m ∈ before, m ∈ s.marks) ∧ ∀ j f, ¬ Fence s j f
  | .minUnlock before value => Holds s i ∧ value ∈ s.marks ∧ ∀ m ∈ before, m ≤ value
  | .minReturn before value => value ∈ s.marks ∧ ∀ m ∈ before, m ≤ value

structure SessionOk (s : State n) (i : Fin n) : Prop where
  sound : Sound needs (done (s.sessions i).log)
  locks : ∀ key, .lock key ∈ done (s.sessions i).log → ∃ f : Nat, key = -(f : Int) ∧ 1 ≤ f ∧
    f ≤ s.last ∧ ∀ m ∈ s.marks, m ≤ f
  pc : AtPc s i (s.sessions i).pc

/-- A transaction identifier that no other session has. -/
def Own (s : State n) (i : Fin n) (xid : Nat) : Prop :=
  xid < s.nextXid ∧ ∀ j, j ≠ i → (s.sessions j).xid ≠ some xid

/-- A version that is drawn and not returned: it is no one else's, and the greatest of its
transaction. -/
def Drawn (s : State n) (i : Fin n) (xid : Option Nat) (value : Nat) : Prop :=
  value ≤ s.last ∧
    (∀ h ∈ s.handed, h.version ≠ value ∧ (xid = some h.xid → h.version < value)) ∧
    ∀ j, j ≠ i → (s.sessions j).pc.pending ≠ some value

structure Inv (s : State n) : Prop where
  session : ∀ i, SessionOk s i
  last : s.last ≤ maxValue
  marks : ∀ m ∈ s.marks, m ≤ s.last + 1
  xid : ∀ i xid, (s.sessions i).xid = some xid → Own s i xid
  foreign : ∀ row ∈ s.foreign, row.isFence = false
  pending : ∀ i value, (s.sessions i).pc.pending = some value → Drawn s i (s.sessions i).xid value
  handed : ∀ h ∈ s.handed, h.version ≤ s.last ∧ h.xid < s.nextXid ∧ ∀ m ∈ h.before, m ≤ h.version
  ordered : s.handed.Pairwise fun later earlier => earlier.version ≠ later.version ∧
    (earlier.xid = later.xid → earlier.version < later.version)
  answers : ∀ a ∈ s.answers, a.value ∈ s.marks ∧ ∀ m ∈ a.before, m ≤ a.value

theorem Holds.unique {s : State n} {i j : Fin n} (hi : Holds s i) (hj : Holds s j) : i = j := by
  obtain ⟨a, ha⟩ := hi
  obtain ⟨b, hb⟩ := hj
  exact congrArg Prod.fst (Option.some.inj (ha.symm.trans hb))

theorem Inv.fences {s : State n} (h : Inv s) {m : Int} :
    m ∈ (s.lockTable.filter LockRow.isFence).map LockRow.value ↔
      ∃ i f, Fence s i f ∧ m = (f : Int) := by
  have hfence : ∀ i key, key ∈ (s.sessions i).locks →
      ∃ f : Nat, key = -(f : Int) ∧ (rowOf key).isFence = true ∧ (rowOf key).value = f := by
    intro i key hkey
    obtain ⟨f, rfl, hpos, hle, -⟩ := (h.session i).locks key (mem_locks.mp hkey)
    exact ⟨f, rfl, rowOf_fence hpos (hle.trans h.last)⟩
  simp only [List.mem_map, List.mem_filter, State.lockTable, List.mem_append, List.mem_flatMap,
    List.mem_finRange, true_and]
  constructor
  · rintro ⟨row, ⟨(hforeign | hglobal) | ⟨i, key, hkey, rfl⟩, hrow⟩, rfl⟩
    · rw [h.foreign row hforeign] at hrow
      cases hrow
    · split at hglobal
      · rw [List.mem_singleton] at hglobal
        subst hglobal
        cases hrow
      · cases hglobal
    · obtain ⟨f, rfl, -, hvalue⟩ := hfence i key hkey
      exact ⟨i, f, mem_locks.mp hkey, hvalue⟩
  · rintro ⟨i, f, hf, rfl⟩
    have hkey := mem_locks.mpr hf
    obtain ⟨g, heq, hrow, hvalue⟩ := hfence i _ hkey
    obtain rfl : f = g := by omega
    exact ⟨_, ⟨.inr ⟨i, _, hkey, rfl⟩, hrow⟩, hvalue⟩

/-- What the minimum finds: the least fence, or none at all. -/
theorem Inv.minFence_some {s : State n} (h : Inv s) {m : Int} (hm : minFence s.lockTable = some m) :
    (∃ i f, Fence s i f ∧ m = (f : Int)) ∧ ∀ i f, Fence s i f → m ≤ (f : Int) := by
  obtain ⟨hmem, hle⟩ := List.min?_eq_some_iff.mp hm
  exact ⟨h.fences.mp hmem, fun i f hf => hle _ (h.fences.mpr ⟨i, f, hf, rfl⟩)⟩

theorem Inv.minFence_none {s : State n} (h : Inv s) (hm : minFence s.lockTable = none) (i : Fin n)
    (f : Nat) : ¬ Fence s i f := by
  intro hf
  have hmem := h.fences.mpr ⟨i, f, hf, rfl⟩
  rw [List.min?_eq_none_iff.mp hm] at hmem
  cases hmem

/-! ### A statement of one session -/

section Put
variable {s : State n} {i : Fin n} {b : Session} {g : Option (Fin n × Nat)}

/-- The state after a statement that changes its own session and the publication lock. -/
def State.moved (s : State n) (i : Fin n) (session : Session) (global : Option (Fin n × Nat)) :
    State n :=
  {s.put i session with global}

@[simp] theorem moved_own : (s.moved i b g).sessions i = b := by
  simp only [State.moved, State.put, Function.update_self]

theorem moved_other {j : Fin n} (hj : j ≠ i) :
    (s.moved i b g).sessions j = s.sessions j := by
  simp only [State.moved, State.put, Function.update_of_ne hj]

theorem moved_fence_other {j : Fin n} (hj : j ≠ i) {f : Nat} :
    Fence (s.moved i b g) j f ↔ Fence s j f := by
  rw [Fence, moved_other hj, Fence]

theorem moved_fence_own {f : Nat} :
    Fence (s.moved i b g) i f ↔ .lock (-(f : Int)) ∈ done b.log := by
  rw [Fence, moved_own]

theorem Drawn.moved {xid : Option Nat} {value : Nat} (h : Drawn s i xid value) :
    Drawn (s.moved i b g) i xid value := by
  refine ⟨h.1, h.2.1, fun j hj => ?_⟩
  rw [moved_other hj]
  exact h.2.2 j hj

/-- The other sessions are as they were: only who holds the publication lock takes a fence. -/
theorem SessionOk.other {j : Fin n} (h : SessionOk s j) (hj : j ≠ i)
    (hfence : ∀ f : Nat, .lock (-(f : Int)) ∈ done b.log → Fence s i f ∨ Holds s i)
    (hholds : ∀ k, k ≠ i → Holds s k → ∃ count, g = some (k, count)) :
    SessionOk (s.moved i b g) j where
  sound := by
    rw [moved_other hj]
    exact h.sound
  locks := by
    rw [moved_other hj]
    exact h.locks
  pc := by
    rw [moved_other hj]
    have hpc := h.pc
    have hmine : Holds s j → Holds (s.moved i b g) j := hholds j hj
    cases hat : (s.sessions j).pc with
    | idle | nextLock => trivial
    | nextFast =>
      rw [hat] at hpc
      obtain ⟨f, hf⟩ := hpc
      exact ⟨f, (moved_fence_other hj).mpr hf⟩
    | nextValue =>
      rw [hat] at hpc
      exact hmine hpc
    | nextFence value =>
      rw [hat] at hpc
      exact ⟨hmine hpc.1, hpc.2⟩
    | nextSet value | nextUnlock value =>
      rw [hat] at hpc
      exact ⟨hmine hpc.1, (moved_fence_other hj).mpr hpc.2⟩
    | nextReturn value =>
      rw [hat] at hpc
      exact (moved_fence_other hj).mpr hpc
    | minLock before =>
      rw [hat] at hpc
      exact hpc
    | minRead before =>
      rw [hat] at hpc
      exact ⟨hmine hpc.1, hpc.2⟩
    | minLast before =>
      rw [hat] at hpc
      refine ⟨hmine hpc.1, hpc.2.1, fun k f hf => ?_⟩
      by_cases hk : k = i
      · subst hk
        rw [Fence, moved_own] at hf
        rcases hfence f hf with hold | hthis
        · exact hpc.2.2 k f hold
        · exact hj (hpc.1.unique hthis)
      · exact hpc.2.2 k f ((moved_fence_other hk).mp hf)
    | minUnlock before value =>
      rw [hat] at hpc
      exact ⟨hmine hpc.1, hpc.2⟩
    | minReturn before value =>
      rw [hat] at hpc
      exact hpc

theorem Inv.moved (h : Inv s) (hsound : Sound needs (done b.log))
    (hlocks : ∀ key, .lock key ∈ done b.log → .lock key ∈ done (s.sessions i).log ∨
      Holds s i ∧ ∃ f : Nat, key = -(f : Int) ∧ 1 ≤ f ∧ f ≤ s.last ∧ ∀ m ∈ s.marks, m ≤ f)
    (hxid : ∀ xid, b.xid = some xid → Own s i xid)
    (hpending : ∀ value, b.pc.pending = some value → Drawn s i b.xid value)
    (hholds : ∀ k, k ≠ i → Holds s k → ∃ count, g = some (k, count))
    (hpc : AtPc (s.moved i b g) i b.pc) : Inv (s.moved i b g) where
  session j := by
    by_cases hj : j = i
    · subst hj
      refine ⟨?_, ?_, ?_⟩
      · rw [moved_own]
        exact hsound
      · rw [moved_own]
        intro key hkey
        rcases hlocks key hkey with hold | ⟨-, hnew⟩
        · exact (h.session j).locks key hold
        · exact hnew
      · rw [moved_own]
        exact hpc
    · refine (h.session j).other hj (fun f hf => ?_) hholds
      rcases hlocks _ hf with hold | hnew
      · exact .inl hold
      · exact .inr hnew.1
  last := h.last
  marks := h.marks
  xid j xid hj := by
    have hown : Own s j xid := by
      by_cases hji : j = i
      · subst hji
        rw [moved_own] at hj
        exact hxid xid hj
      · rw [moved_other hji] at hj
        exact h.xid j xid hj
    refine ⟨hown.1, fun k hk hsame => ?_⟩
    by_cases hki : k = i
    · subst hki
      rw [moved_own] at hsame
      rw [moved_other (Ne.symm hk)] at hj
      exact (hxid xid hsame).2 j (Ne.symm hk) hj
    · rw [moved_other hki] at hsame
      exact hown.2 k hk hsame
  foreign := h.foreign
  pending j value hj := by
    have hdrawn : Drawn s j ((s.moved i b g).sessions j).xid value := by
      by_cases hji : j = i
      · subst hji
        rw [moved_own] at hj ⊢
        exact hpending value hj
      · rw [moved_other hji] at hj ⊢
        exact h.pending j value hj
    refine ⟨hdrawn.1, hdrawn.2.1, fun k hk hsame => ?_⟩
    by_cases hki : k = i
    · subst hki
      rw [moved_own] at hsame
      rw [moved_other (Ne.symm hk)] at hj
      exact (hpending value hsame).2.2 j (Ne.symm hk) hj
    · rw [moved_other hki] at hsame
      exact hdrawn.2.2 k hk hsame
  handed := h.handed
  ordered := h.ordered
  answers := h.answers

/-- A statement of the transaction that the session is in. -/
theorem Inv.put (h : Inv s) (hsound : Sound needs (done b.log))
    (hlocks : ∀ key, .lock key ∈ done b.log → .lock key ∈ done (s.sessions i).log ∨
      Holds s i ∧ ∃ f : Nat, key = -(f : Int) ∧ 1 ≤ f ∧ f ≤ s.last ∧ ∀ m ∈ s.marks, m ≤ f)
    (hxid : b.xid = (s.sessions i).xid)
    (hpending : ∀ value, b.pc.pending = some value → Drawn s i (s.sessions i).xid value)
    (hholds : ∀ k, k ≠ i → Holds s k → ∃ count, g = some (k, count))
    (hpc : AtPc (s.moved i b g) i b.pc) : Inv (s.moved i b g) := by
  refine h.moved hsound hlocks (fun xid hsome => h.xid i xid (hxid ▸ hsome)) ?_ hholds hpc
  rw [hxid]
  exact hpending

/-- A statement after which the effects of the session are some of those it had, and its
version, if it had drawn one, is lost. -/
theorem Inv.quiet (h : Inv s) (hlog : done b.log <:+ done (s.sessions i).log)
    (hxid : b.xid = (s.sessions i).xid ∨ b.xid = none)
    (hpending : b.pc.pending = none)
    (hholds : ∀ k, k ≠ i → Holds s k → ∃ count, g = some (k, count))
    (hpc : AtPc (s.moved i b g) i b.pc) : Inv (s.moved i b g) := by
  refine h.moved ((h.session i).sound.suffix hlog) (fun key hkey => .inl (hlog.subset hkey))
    (fun xid hsome => ?_) (fun value hsome => ?_) hholds hpc
  · rcases hxid with hsame | hnone
    · exact h.xid i xid (hsame ▸ hsome)
    · rw [hnone] at hsome
      cases hsome
  · rw [hpending] at hsome
    cases hsome

end Put

end Agiru.RowVersion
