import Agiru.NumberSequence.Reservations

/-! When a call releases its allocation lock, and what all runs have in common. -/
namespace Agiru.NumberSequence
open Undo Ranges

variable {n : Nat} {hash : Identity → BitVec 64} {s t : State n} {i : Fin n}
variable {op : Operation} {identity : Identity}
variable {key : BitVec 64}
variable {count : Nat}

/-! ### The allocation lock -/

/-- The call whose allocation lock a session has taken and not released. -/
def Pc.guarded : Pc → Option (Operation × Identity)
  | .find op identity | .found op identity _ | .create op identity .. | .deleteEntry op identity _
  | .readLast op identity .. | .setLast op identity .. | .blockEnd op identity _
  | .unlock op identity _ | .handler op identity => some (op, identity)
  | _ => none

/-- A lock of the call that a session is in. -/
def OfCall (hash : Identity → BitVec 64) (pc : Pc) (key : BitVec 64) : Prop :=
  ∃ op identity, pc.guarded = some (op, identity) ∧ op.allocation = true ∧
    key = allocationKey hash identity

/-- Every allocation lock is held once, by the call that took it. -/
def Freed (hash : Identity → BitVec 64) (s : State n) : Prop :=
  ∀ i key count, s.held key = some (i, count) → count = 1 ∧ OfCall hash (s.sessions i).pc key

theorem Freed.none_held (h : Freed hash s) (hpc : (s.sessions i).pc.guarded = none) (key : BitVec 64)
    (count : Nat) : s.held key ≠ some (i, count) := by
  intro hheld
  obtain ⟨-, op, identity, hguarded, -⟩ := h i key count hheld
  rw [hpc] at hguarded
  cases hguarded

/-- A statement of one session. -/
theorem Freed.moved {b : Session} (h : Freed hash s) (hsessions : t.sessions = Function.update s.sessions i b)
    (hother : ∀ k, k ≠ i → ∀ key count, t.held key = some (k, count) → s.held key = some (k, count))
    (hown : ∀ key count, t.held key = some (i, count) → count = 1 ∧ OfCall hash b.pc key) :
    Freed hash t := by
  intro k key count hheld
  rw [hsessions]
  by_cases hk : k = i
  · subst hk
    rw [Function.update_self]
    exact hown key count hheld
  · rw [Function.update_of_ne hk]
    exact h k key count (hother k hk key count hheld)

/-- A statement that neither takes nor releases a lock. -/
theorem Freed.quiet {b : Session} (h : Freed hash s)
    (hsessions : t.sessions = Function.update s.sessions i b) (hheld : t.held = s.held)
    (hpc : (s.sessions i).pc.guarded = none ∨ b.pc.guarded = (s.sessions i).pc.guarded) :
    Freed hash t := by
  refine h.moved hsessions (fun k _ key count heq => hheld ▸ heq) fun key count heq => ?_
  rw [hheld] at heq
  rcases hpc with hnone | hsame
  · exact absurd heq (h.none_held hnone key count)
  · obtain ⟨hcount, op, identity, hguarded, hrest⟩ := h i key count heq
    exact ⟨hcount, op, identity, hsame.trans hguarded, hrest⟩

theorem held_of_released {k : Fin n} (hk : k ≠ i)
    (h : s.released hash i op identity key = some (k, count)) : s.held key = some (k, count) := by
  unfold State.released at h
  split at h
  · by_cases hkey : key = allocationKey hash identity
    · subst hkey
      rw [State.unlocked, Function.update_self] at h
      split at h
      · cases h
      · rename_i holder held hheld
        split at h
        · split at h
          · cases h
          · cases h
            exact absurd rfl hk
        · rw [hheld, h]
    · rwa [State.unlocked, Function.update_of_ne hkey] at h
  · exact h

/-- What is left of a lock of one's own after the release: it was not the call's, or held more
than once. -/
theorem held_of_released_own (h : s.released hash i op identity key = some (i, count)) :
    ∃ before, (op.allocation = true → key = allocationKey hash identity → before ≠ 1) ∧
      s.held key = some (i, before) := by
  unfold State.released at h
  split at h
  · by_cases hkey : key = allocationKey hash identity
    · subst hkey
      rw [State.unlocked, Function.update_self] at h
      split at h
      · cases h
      · rename_i holder held hheld
        split at h
        · rename_i hmine
          subst hmine
          split at h
          · cases h
          · rename_i hne
            exact ⟨held, fun _ _ => hne, hheld⟩
        · rename_i hne
          cases h
          exact absurd rfl hne
    · rw [State.unlocked, Function.update_of_ne hkey] at h
      exact ⟨count, fun _ heq => absurd heq hkey, h⟩
  · rename_i hop
    exact ⟨count, fun h => absurd h hop, h⟩

/-- A statement that releases the call's lock. -/
theorem Freed.released {b : Session} (h : Freed hash s) (hsessions : t.sessions = Function.update s.sessions i b)
    (hheld : t.held = s.released hash i op identity)
    (hpc : (s.sessions i).pc.guarded = some (op, identity)) : Freed hash t := by
  refine h.moved hsessions (fun k hk key count heq => ?_) fun key count heq => ?_
  · rw [hheld] at heq
    exact held_of_released hk heq
  · exfalso
    rw [hheld] at heq
    obtain ⟨before, hne, hbefore⟩ := held_of_released_own heq
    obtain ⟨rfl, op', identity', hguarded, hop, rfl⟩ := h i key before hbefore
    obtain ⟨rfl, rfl⟩ := Prod.mk.inj (Option.some.inj (hpc.symm.trans hguarded))
    exact hne hop rfl rfl

theorem held_of_acquired {key' : BitVec 64} {k : Fin n} (hk : k ≠ i)
    (h : s.acquired i key key' = some (k, count)) : s.held key' = some (k, count) := by
  by_cases hkey : key' = key
  · subst hkey
    rw [State.acquired, Function.update_self] at h
    split at h
    · cases h
      exact absurd rfl hk
    · cases h
      exact absurd rfl hk
  · rwa [State.acquired, Function.update_of_ne hkey] at h

/-- A lock that a session takes and did not have is held once. -/
theorem acquired_once (hfree : s.Free i key true) (hnone : ∀ key count, s.held key ≠ some (i, count))
    (h : s.acquired i key key = some (i, count)) : count = 1 := by
  rw [State.acquired, Function.update_self] at h
  split at h
  · cases h
    rfl
  · rename_i holder held hheld
    by_cases hmine : holder = i
    · subst hmine
      exact absurd hheld (hnone key held)
    · exact absurd hheld ((hfree holder hmine).1 held)

theorem guarded_of_block {pc : Pc}
    (h : pc.block = some (op, identity)) : pc.guarded = none ∨ pc.guarded = some (op, identity) := by
  cases pc with
  | lockAllocation op' identity' => exact .inl rfl
  | idle | lockIdentity op' identity' | unlock op' identity' row | handler op' identity' | leave row => cases h
  | _ => exact .inr h

theorem Freed.step (h : Freed hash s) (hinv : Inv hash s) (hstep : Step hash s t) : Freed hash t := by
  cases hstep with
  | begin i hnone hpc | savepoint i hin hpc hok | rollbackTo i hpc hsavepoint | release i hpc hok
  | commit i hpc hok | rollback i hpc => exact h.quiet rfl rfl (.inl (by rw [hpc]; rfl))
  | disconnect i =>
    refine h.moved rfl (fun k hk key count heq => ?_) fun key count heq => ?_
    · exact (Option.filter_eq_some_iff.mp heq).1
    · have hne := (Option.filter_eq_some_iff.mp heq).2
      simp at hne
  | call i op perCompany companyName sequenceName hin hpc hok | lockExclusive i op identity hpc hop hfree
  | lockShared i op identity hpc hop hfree | lockNone i op identity hpc hmutation hallocation =>
    exact h.quiet rfl rfl (.inl (by rw [hpc]; rfl))
  | lockAllocation i op identity hpc hfree =>
    have hat := (hinv.session i).pc
    rw [hpc] at hat
    have hnone := h.none_held (i := i) (by rw [hpc]; rfl)
    refine h.moved rfl (fun k hk key count heq => ?_) fun key count heq => ?_
    · exact held_of_acquired hk heq
    · by_cases hkey : key = allocationKey hash identity
      · refine ⟨?_, op, identity, rfl, hat.1, hkey⟩
        subst hkey
        exact acquired_once hfree hnone heq
      · exact absurd ((Function.update_of_ne hkey _ _).symm.trans heq) (hnone key count)
  | find i op identity hpc | absent i op identity hpc hop | existing i identity entryId hpc
  | insertEntry i identity seed step hpc hstep hnone | createSequence i op identity entryId seed step hpc
  | dropSequence i identity entryId storage hpc hstorage | deleteEntry i op identity entryId hpc
  | restart i identity seed entryId storage hpc hstorage
  | current i identity entryId storage file hpc hstorage hfile
  | readProperties i identity count entryId storage hpc hstorage hcount hcache hcycle
  | readLast i op identity entryId count properties storage file hpc hstorage hfile
  | setLast i op identity entryId count properties first storage file hpc hbounds hstorage hfile
  | blockEnd i op identity row hpc => exact h.quiet rfl rfl (.inr (by rw [hpc]; rfl))
  | unlock i op identity row hpc => exact h.released rfl rfl (by rw [hpc]; rfl)
  | leave i row hpc => exact h.quiet rfl rfl (.inl (by rw [hpc]; rfl))
  | fails i op identity hpc =>
    exact h.quiet rfl rfl ((guarded_of_block hpc).imp_right fun heq => heq.symm)
  | handled i op identity hpc => exact h.released rfl rfl (by rw [hpc]; rfl)
  | failsOutside i op identity row hpc =>
    rcases hpc with hpc | hpc | ⟨hop, hpc⟩
    · exact h.quiet rfl rfl (.inl (by rw [hpc]; rfl))
    · exact h.quiet rfl rfl (.inl (by rw [hpc]; rfl))
    · refine h.moved rfl (fun k _ key count heq => heq) fun key count heq => ?_
      obtain ⟨-, op', identity', hguarded, hop', -⟩ := h i key count heq
      have hcall : (s.sessions i).pc.guarded = some (op, identity) := by
        rcases hpc with hpc | hpc
        · rw [hpc]
          rfl
        · rw [hpc]
          rfl
      obtain ⟨rfl, rfl⟩ := Prod.mk.inj (Option.some.inj (hcall.symm.trans hguarded))
      rw [hop] at hop'
      cases hop'

theorem ReachedUninterrupted.freed (h : ReachedUninterrupted hash s) : Freed hash s := by
  have hboth : Inv hash s ∧ Freed hash s := by
    refine Reachable.invariant (I := fun s => Inv hash s ∧ Freed hash s) (fun first hfirst => ?_)
      (fun _ _ hold hstep => ⟨hold.1.step hstep, hold.2.step hold.1 hstep⟩) h
    subst hfirst
    exact ⟨.start, fun _ _ _ hheld => by cases hheld⟩
  exact hboth.2

theorem ReachedUninterrupted.reached (h : ReachedUninterrupted hash s) : Reached hash s := by
  obtain ⟨first, hfirst, hrun⟩ := h
  exact ⟨first, hfirst, Relation.ReflTransGen.mono (fun _ _ => Or.inl) _ _ hrun⟩

/-! ### What was reserved -/

theorem Inv.ofNode_disjoint (h : Inv hash s) {node : Nat} {file : File}
    (hfile : s.files[node]? = some file) :
    (s.ofNode node).Pairwise fun later earlier => ∀ k, k < later.count → ∀ l, l < earlier.count →
      later.number k ≠ earlier.number l :=
  (h.files node file hfile).chained.disjoint (h.files node file hfile).increment

theorem mem_ofNode {node : Nat} {r : Range} : r ∈ s.ofNode node ↔ (node, r) ∈ s.reserved := by
  simp only [State.ofNode, List.mem_map, List.mem_filter, decide_eq_true_eq]
  constructor
  · rintro ⟨e, ⟨he, rfl⟩, rfl⟩
    exact he
  · exact fun h => ⟨_, ⟨h, rfl⟩, rfl⟩

/-- Two ranges of one file have no number in common. -/
theorem Inv.reserved_disjoint (h : Inv hash s) {e e' : Nat × Range} (he : e ∈ s.reserved)
    (he' : e' ∈ s.reserved) (hne : e ≠ e') (hnode : e.1 = e'.1) (k : Nat) (hk : k < e.2.count)
    (l : Nat) (hl : l < e'.2.count) : e.2.number k ≠ e'.2.number l := by
  have hfile := List.getElem?_eq_getElem (h.reserved e he).1
  have hdisjoint := h.ofNode_disjoint hfile
  have hsymm : Std.Symm fun later earlier : Range => ∀ k, k < later.count → ∀ l,
      l < earlier.count → later.number k ≠ earlier.number l :=
    ⟨fun _ _ hpair k hk l hl heq => hpair l hl k hk heq.symm⟩
  refine hdisjoint.forall (mem_ofNode.mpr he) (mem_ofNode.mpr (hnode ▸ he')) ?_ k hk l hl
  exact fun heq => hne (Prod.ext hnode heq)

theorem RangeOk.bounded {r : Range} (h : RangeOk r) {k : Nat} (hk : k < r.count) :
    -9223372036854775808 ≤ r.number k ∧ r.number k ≤ 9223372036854775807 := by
  obtain ⟨hcount, hbounds⟩ := h
  simp only [Properties.exceeded, Properties.created, Bool.or_eq_false_iff] at hbounds
  obtain ⟨⟨⟨hlow, hhigh⟩, hlow'⟩, hhigh'⟩ := hbounds
  exact Range.number_bounded
    ⟨not_lt.mp (of_decide_eq_false hlow), not_lt.mp (of_decide_eq_false hhigh)⟩
    ⟨not_lt.mp (of_decide_eq_false hlow'), not_lt.mp (of_decide_eq_false hhigh')⟩ hk

/-! ### What a statement does to a file -/

/-- A file changes only when a range is reserved of it. -/
theorem Step.files {t : State n} (h : Step hash s t) (hreserved : t.reserved = s.reserved)
    (node : Nat) (file : File) (hfile : s.files[node]? = some file) : t.files[node]? = some file := by
  have hlt := (List.getElem?_eq_some_iff.mp hfile).1
  cases h with
  | createSequence i op identity entryId seed step hpc | restart i identity seed entryId storage hpc hstorage =>
    exact (List.getElem?_append_left hlt).trans hfile
  | setLast i op identity entryId count properties first storage file' hpc hbounds hstorage hfile' =>
    exact absurd hreserved (List.cons_ne_self _ _)
  | _ => exact hfile

/-- What a statement can do to the session that takes it, where that is about to write a
sequence's next value: end it, fail, or reserve within the bounds. -/
theorem Step.actor {t : State n} (h : Step hash s t) :
    ∃ j, (∀ k, k ≠ j → t.sessions k = s.sessions k) ∧ ((s.sessions j).pc.setting = none ∨
      t.reserved = s.reserved ∧ (t.sessions j = {} ∨ ∃ op identity,
        (s.sessions j).pc.block = some (op, identity) ∧ (t.sessions j).pc = .handler op identity) ∨
      ∃ op identity entryId count properties first,
        (s.sessions j).pc = .setLast op identity entryId count properties first ∧
        properties.exceeded first (finalValue first count properties.seqincrement) = false) := by
  have hother : ∀ (j : Fin n) (b : Session) (k : Fin n), k ≠ j →
      Function.update s.sessions j b k = s.sessions k :=
    fun _ b _ hk => Function.update_of_ne hk b s.sessions
  cases h with
  | begin i hnone hpc | savepoint i hin hpc hok | rollbackTo i hpc hsavepoint | release i hpc hok
  | commit i hpc hok | rollback i hpc | call i op perCompany companyName sequenceName hin hpc hok
  | lockExclusive i op identity hpc hop hfree | lockShared i op identity hpc hop hfree
  | lockNone i op identity hpc hmutation hallocation | lockAllocation i op identity hpc hfree
  | find i op identity hpc | absent i op identity hpc hop | existing i identity entryId hpc
  | insertEntry i identity seed step hpc hstep hnone | createSequence i op identity entryId seed step hpc
  | dropSequence i identity entryId storage hpc hstorage | deleteEntry i op identity entryId hpc
  | restart i identity seed entryId storage hpc hstorage
  | current i identity entryId storage file hpc hstorage hfile
  | readProperties i identity count entryId storage hpc hstorage hcount hcache hcycle
  | readLast i op identity entryId count properties storage file hpc hstorage hfile
  | blockEnd i op identity row hpc | unlock i op identity row hpc | leave i row hpc | handled i op identity hpc =>
    exact ⟨i, hother i _, .inl (by rw [hpc]; rfl)⟩
  | disconnect i =>
    exact ⟨i, hother i _, .inr (.inl ⟨rfl, .inl (Function.update_self ..)⟩)⟩
  | setLast i op identity entryId count properties first storage file hpc hbounds hstorage hfile =>
    exact ⟨i, hother i _, .inr (.inr ⟨op, identity, entryId, count, properties, first, hpc, hbounds⟩)⟩
  | fails i op identity hpc =>
    refine ⟨i, hother i _, .inr (.inl ⟨rfl, .inr ⟨op, identity, hpc, ?_⟩⟩)⟩
    dsimp only [State.put]
    rw [Function.update_self]
  | failsOutside i op identity row hpc =>
    refine ⟨i, hother i _, .inl ?_⟩
    rcases hpc with hpc | hpc | ⟨-, hpc | hpc⟩
    · rw [hpc]
      rfl
    · rw [hpc]
      rfl
    · rw [hpc]
      rfl
    · rw [hpc]
      rfl

theorem Interrupt.actor {t : State n} (h : Interrupt s t) : t.reserved = s.reserved ∧
    t.files = s.files ∧
    ∃ j, (∀ k, k ≠ j → t.sessions k = s.sessions k) ∧ (s.sessions j).pc.setting = none := by
  obtain ⟨j, op, identity, row, hop, hpc⟩ := h
  refine ⟨rfl, rfl, j, fun k hk => Function.update_of_ne hk _ s.sessions, ?_⟩
  rcases hpc with hpc | hpc
  · rw [hpc]
    rfl
  · rw [hpc]
    rfl

/-- A reservation that would leave the bounds goes on nowhere but to the handler, and nothing
is reserved. -/
theorem exceeded_raises {t : State n} {entryId : Nat}
    {count : Int} {properties : Properties} {first : Int} (h : Step hash s t ∨ Interrupt s t)
    (hpc : (s.sessions i).pc = .setLast op identity entryId count properties first)
    (hexceeded : properties.exceeded first (finalValue first count properties.seqincrement) = true) :
    t.sessions i = s.sessions i ∨ t.reserved = s.reserved ∧
      (t.sessions i = {} ∨ (t.sessions i).pc = .handler op identity) := by
  rcases h with h | h
  · obtain ⟨j, hother, hactor⟩ := h.actor
    by_cases hij : i = j
    · subst hij
      rcases hactor with hnone | ⟨hreserved, hempty | ⟨op', identity', hblock, hhandler⟩⟩ |
        ⟨_, _, _, _, _, _, hset, hbounds⟩
      · rw [hpc] at hnone
        cases hnone
      · exact .inr ⟨hreserved, .inl hempty⟩
      · rw [hpc] at hblock
        cases hblock
        exact .inr ⟨hreserved, .inr hhandler⟩
      · rw [hpc] at hset
        cases hset
        rw [hexceeded] at hbounds
        cases hbounds
    · exact .inl (hother i hij)
  · obtain ⟨-, -, j, hother, hnone⟩ := h.actor
    refine .inl (hother i ?_)
    rintro rfl
    rw [hpc] at hnone
    cases hnone

/-- A session that nobody else's locks are in the way of, of two. -/
theorem State.Free.of_two {s : State 2} {i j : Fin 2} {exclusive : Bool}
    (hij : ∀ k, k ≠ i → k = j) (hheld : s.held key = none)
    (hlog : ∀ e ∈ done (s.sessions j).log, e ≠ .lock key true ∧ (exclusive = true → e ≠ .lock key false)) :
    s.Free i key exclusive := by
  intro k hk
  rw [hij k hk]
  refine ⟨fun count hother => ?_, fun hlock => (hlog _ hlock).1 rfl, fun hexclusive hlock =>
    (hlog _ hlock).2 hexclusive rfl⟩
  rw [hheld] at hother
  cases hother

/-! ### Number sequences -/

/-- In every run, the ranges that are reserved of one file, from a `CREATE SEQUENCE` or a
restart on, continue each other; no number is in two of them, nor returned twice; every
number is a `bigint`; without a reservation no next value changes, and a reservation that would
leave the bounds fails. In a run without an interrupt between a block and its release, a
session outside of a call holds no allocation lock. -/
theorem sequences_reserve_once (hash : Identity → BitVec 64) :
    (∀ s : State n, Reached hash s →
      (∀ (node : Nat) file, s.files[node]? = some file →
        Chained file.seed file.increment (s.ofNode node) ∧
        (s.ofNode node).Pairwise fun later earlier => ∀ k, k < later.count →
          ∀ l, l < earlier.count → later.number k ≠ earlier.number l) ∧
      (s.handed.Pairwise fun later earlier => later.1 = earlier.1 → ∀ k, k < later.2.count →
        ∀ l, l < earlier.2.count → later.2.number k ≠ earlier.2.number l) ∧
      (∀ e ∈ s.reserved, ∀ k, k < e.2.count →
        -9223372036854775808 ≤ e.2.number k ∧ e.2.number k ≤ 9223372036854775807) ∧
      ∀ t, Step hash s t ∨ Interrupt s t →
        (t.reserved = s.reserved → ∀ (node : Nat) file, s.files[node]? = some file →
          t.files[node]? = some file) ∧
        ∀ i op identity entryId count properties first,
          (s.sessions i).pc = .setLast op identity entryId count properties first →
          properties.exceeded first (finalValue first count properties.seqincrement) = true →
          t.sessions i = s.sessions i ∨ t.reserved = s.reserved ∧
            (t.sessions i = {} ∨ (t.sessions i).pc = .handler op identity)) ∧
    ∀ s : State n, ReachedUninterrupted hash s → ∀ i, (s.sessions i).pc = .idle →
      ∀ key count, s.held key ≠ some (i, count) := by
  refine ⟨fun s hs => ?_, fun s hs i hpc => hs.freed.none_held (by rw [hpc]; rfl)⟩
  have hinv := hs.inv
  refine ⟨fun node file hfile => ⟨(hinv.files node file hfile).chained, hinv.ofNode_disjoint hfile⟩,
    ?_, fun e he k hk => (hinv.reserved e he).2.bounded hk, fun t ht => ⟨fun hreserved node file hfile => ?_,
      fun i op identity entryId count properties first hpc hexceeded =>
        exceeded_raises ht hpc hexceeded⟩⟩
  · refine hinv.once.imp_of_mem fun hlater hearlier hne hnode k hk l hl => ?_
    exact hinv.reserved_disjoint (hinv.handed _ hlater) (hinv.handed _ hearlier) hne hnode k hk l hl
  · rcases ht with hstep | hinterrupt
    · exact hstep.files hreserved node file hfile
    · rw [hinterrupt.actor.2.1]
      exact hfile

/-- Two sessions reserve of one sequence: the second waits for the first, which returns after it. -/
theorem sequences_reserve_once_waiting : ∃ s : State 2, ReachedUninterrupted (fun _ => 0) s ∧
    s.handed = [(0, ⟨1, 2, 1⟩), (0, ⟨3, 1, 1⟩)] ∧
    (s.handed.Pairwise fun later earlier => later.1 = earlier.1 → ∀ k, k < later.2.count →
      ∀ l, l < earlier.2.count → later.2.number k ≠ earlier.2.number l) ∧
    ∀ i, (s.sessions i).pc = .idle ∧ ∀ key count, s.held key ≠ some (i, count) := by
  have h0 : ReachedUninterrupted (fun _ => 0) ({} : State 2) := ⟨_, rfl, .refl⟩
  have hinserted := ((((((((h0.step (.begin 0 rfl rfl)).step
    (.call 0 (.insert 1 1) false "" "" rfl rfl rfl)).step
    (.lockExclusive 0 _ _ rfl rfl (.of_two (j := 1) (by decide) rfl (by decide)))).step (.find 0 _ _ rfl)).step
    (.insertEntry 0 _ 1 1 rfl (by decide) rfl)).step (.createSequence 0 _ _ 0 1 1 rfl)).step
    (.blockEnd 0 _ _ _ rfl)).step (.unlock 0 _ _ _ rfl)).step
    (.leave 0 _ rfl)
  have hshared := ((((((hinserted.step (.commit 0 rfl rfl)).step
    (.begin 0 rfl rfl)).step (.begin 1 rfl rfl)).step
    (.call 0 (.reserve 2) false "" "" rfl rfl rfl)).step
    (.call 1 (.reserve 1) false "" "" rfl rfl rfl)).step
    (.lockShared 0 _ _ rfl rfl (.of_two (j := 1) (by decide) rfl (by decide)))).step
    (.lockShared 1 _ _ rfl rfl (.of_two (j := 0) (by decide) rfl (by decide)))
  have hfirst := (((((((hshared.step
    (.lockAllocation 0 _ _ rfl (.of_two (j := 1) (by decide) rfl (by decide)))).step (.find 0 _ _ rfl)).step
    (.readProperties 0 _ 2 0 ⟨.created 1, 0⟩ rfl rfl (by decide) rfl rfl)).step
    (.readLast 0 _ _ 0 2 _ ⟨.created 1, 0⟩ (.fresh 0 1 1) rfl rfl rfl)).step
    (.setLast 0 _ _ 0 2 _ 1 ⟨.created 1, 0⟩ (.fresh 0 1 1) rfl rfl rfl rfl)).step (.blockEnd 0 _ _ _ rfl)).step
    (.unlock 0 _ _ _ rfl))
  have hsecond := ((((((((hfirst.step
    (.lockAllocation 1 _ _ rfl (.of_two (j := 0) (by decide) rfl (by decide)))).step (.find 1 _ _ rfl)).step
    (.readProperties 1 _ 1 0 ⟨.created 1, 0⟩ rfl rfl (by decide) rfl rfl)).step
    (.readLast 1 _ _ 0 1 _ ⟨.created 1, 0⟩ _ rfl rfl rfl)).step
    (.setLast 1 _ _ 0 1 _ 3 ⟨.created 1, 0⟩ _ rfl rfl rfl rfl)).step (.blockEnd 1 _ _ _ rfl)).step
    (.unlock 1 _ _ _ rfl)).step (.leave 1 _ rfl)).step
    (.leave 0 _ rfl)
  obtain ⟨hevery, hreleased⟩ := sequences_reserve_once (fun _ => 0)
  refine ⟨_, hsecond, rfl, (hevery _ (ReachedUninterrupted.reached hsecond)).2.1, ?_⟩
  exact Fin.forall_fin_two.mpr ⟨⟨rfl, hreleased _ hsecond 0 rfl⟩, ⟨rfl, hreleased _ hsecond 1 rfl⟩⟩

/-- An interrupt after the block of a reservation leaves its lock. -/
theorem interrupt_leaves_lock : ∃ s : State 1, Reached (fun _ => 0) s ∧
    (s.sessions 0).pc = .idle ∧ (s.sessions 0).failed = true ∧ s.held 1 = some (0, 1) := by
  have h0 : Reached (fun _ => 0) ({} : State 1) := ⟨_, rfl, .refl⟩
  have h1 := h0.step (.inl (.begin 0 rfl rfl))
  have h2 := h1.step (.inl (.call 0 (.insert 1 1) false "" "" rfl rfl rfl))
  have h3 := h2.step (.inl (.lockExclusive 0 _ _ rfl rfl (fun j hj => absurd (Subsingleton.elim j 0) hj)))
  have h4 := h3.step (.inl (.find 0 _ _ rfl))
  have h5 := h4.step (.inl (.insertEntry 0 _ 1 1 rfl (by decide) rfl))
  have h6 := h5.step (.inl (.createSequence 0 _ _ 0 1 1 rfl))
  have h7 := h6.step (.inl (.blockEnd 0 _ _ _ rfl))
  have h8 := h7.step (.inl (.unlock 0 _ _ _ rfl))
  have h9 := h8.step (.inl (.leave 0 _ rfl))
  have h10 := h9.step (.inl (.call 0 (.reserve 1) false "" "" rfl rfl rfl))
  have h11 := h10.step (.inl (.lockShared 0 _ _ rfl rfl (fun j hj => absurd (Subsingleton.elim j 0) hj)))
  have h12 := h11.step
    (.inl (.lockAllocation 0 _ _ rfl (fun j hj => absurd (Subsingleton.elim j 0) hj)))
  have h13 := h12.step (.inl (.find 0 _ _ rfl))
  have h14 := h13.step (.inl (.readProperties 0 _ 1 0 ⟨.created 1, 0⟩ rfl rfl (by decide) rfl rfl))
  have h15 := h14.step (.inl (.readLast 0 _ _ 0 1 _ ⟨.created 1, 0⟩ (.fresh 0 1 1) rfl rfl rfl))
  have h16 := h15.step
    (.inl (.setLast 0 _ _ 0 1 _ 1 ⟨.created 1, 0⟩ (.fresh 0 1 1) rfl rfl rfl rfl))
  have h17 := h16.step (.inl (.blockEnd 0 _ _ _ rfl))
  have h18 := h17.step (.inr (.interrupted 0 _ _ _ rfl (.inl rfl)))
  exact ⟨_, h18, rfl, rfl, rfl⟩

end Agiru.NumberSequence
