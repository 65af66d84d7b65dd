import Agiru.NumberSequence.Guarded

/-! Every statement keeps what the locks guard, and so does every run: the ranges that were
reserved of one file continue each other, within the bounds of a `bigint`. -/
namespace Agiru.NumberSequence
open Undo Ranges

variable {n : Nat} {hash : Identity → BitVec 64} {s : State n} {i : Fin n}
variable {op : Operation} {identity : Identity}
variable {node : Nat} {count : Int}
variable {key : BitVec 64}

/-! ### Session locks -/

theorem acquired_holds (hfree : s.Free i key true) : ∃ count, s.acquired i key key = some (i, count) := by
  rw [State.acquired, Function.update_self]
  cases hheld : s.held key with
  | none => exact ⟨1, rfl⟩
  | some holder =>
    have hmine : holder.1 = i := by
      by_contra hne
      exact (hfree holder.1 hne).1 holder.2 hheld
    exact ⟨holder.2 + 1, by rw [← hmine]⟩

theorem acquired_other (hfree : s.Free i key true) (k : Fin n) (hk : k ≠ i)
    (key' : BitVec 64) (h : Holds s k key') : ∃ count, s.acquired i key key' = some (k, count) := by
  obtain ⟨count, hheld⟩ := h
  have hne : key' ≠ key := by
    rintro rfl
    exact (hfree k hk).1 count hheld
  exact ⟨count, by rw [State.acquired, Function.update_of_ne hne, hheld]⟩

theorem released_other (k : Fin n) (hk : k ≠ i) (key : BitVec 64) (h : Holds s k key) :
    ∃ count, s.released hash i op identity key = some (k, count) := by
  obtain ⟨count, hheld⟩ := h
  unfold State.released
  split
  · by_cases hkey : key = allocationKey hash identity
    · subst hkey
      exact ⟨count, by rw [State.unlocked, Function.update_self, hheld]; exact if_neg hk⟩
    · exact ⟨count, by rw [State.unlocked, Function.update_of_ne hkey, hheld]⟩
  · exact ⟨count, hheld⟩

theorem not_mutation (h : op.allocation = true) : op.mutation = false := by
  cases op with
  | current | reserve count => rfl
  | _ => cases h

theorem not_allocation (h : op.mutation = true) : op.allocation = false := by
  cases op with
  | insert seed step | delete | restart seed => rfl
  | _ => cases h

section
variable {b : Session} {g : BitVec 64 → Option (Fin n × Nat)}

theorem moved_hasLock {exclusive : Bool} :
    HasLock (s.moved i b g) i key exclusive ↔ .lock key exclusive ∈ done b.log := by
  rw [HasLock, moved_own]

theorem moved_storage {id : Nat} {storage : Storage} (h : s.storage i id = some storage)
    (hlog : b.log = (s.sessions i).log) : (s.moved i b g).storage i id = some storage := by
  rw [State.storage, moved_own, hlog]
  exact h

theorem moved_moved {a : Session} : (s.moved i a g).moved i b g = s.moved i b g := by
  simp only [State.moved, State.put, Function.update_idem]

theorem InBlock.moved {pc : Pc} (h : InBlock hash s i op identity) :
    InBlock hash (s.moved i {s.sessions i with pc} s.held) i op identity :=
  ⟨fun hop => moved_hasLock.mpr (h.exclusive hop), fun hop => moved_hasLock.mpr (h.shared hop), h.holds⟩

end

/-! ### What only grows -/

/-- An identity has been given the next number. -/
theorem Inv.made (h : Inv hash s) (identity : Identity) :
    Inv hash {s with made := s.made ++ [identity]} where
  session j := by
    refine Kept.sessionOk (s := s) ⟨rfl, fun id _ hid => ?_, fun _ file hfile => ?_, fun _ hkey => hkey,
      fun _ _ _ _ => rfl, fun _ _ _ _ hfile _ => hfile⟩ h
    · exact List.getElem?_append_left (List.getElem?_eq_some_iff.mp hid).1 ▸ hid
    · exact ⟨file, hfile, rfl, rfl⟩
  exclusive := h.exclusive
  entries identity' id hid := by
    have hmade := h.entries identity' id hid
    exact List.getElem?_append_left (List.getElem?_eq_some_iff.mp hmade).1 ▸ hmade
  storages := h.storages
  files node file hfile := ⟨(h.files node file hfile).1, (h.files node file hfile).2, (h.files node file hfile).3⟩
  reserved := h.reserved
  pending j e hj := ⟨(h.pending j e hj).1, (h.pending j e hj).2, (h.pending j e hj).3⟩
  handed := h.handed
  once := h.once

theorem ofNode_fresh (h : Inv hash s) (hnode : s.files.length ≤ node) : s.ofNode node = [] := by
  rw [State.ofNode, List.map_eq_nil_iff, List.filter_eq_nil_iff]
  intro e he
  have hlt := (h.reserved e he).1
  simp only [decide_eq_true_eq]
  omega

/-- A new file. -/
theorem Inv.file (h : Inv hash s) (id : Nat) (seed : Int) {increment : Int} (hne : increment ≠ 0) :
    Inv hash {s with files := s.files ++ [.fresh id seed increment]} where
  session j := by
    refine Kept.sessionOk (s := s) ⟨rfl, fun _ _ hid => hid, fun node file hfile => ?_,
      fun _ hkey => hkey, fun _ _ _ _ => rfl, fun _ _ node file hfile _ => ?_⟩ h
    · refine ⟨file, ?_, rfl, rfl⟩
      exact List.getElem?_append_left (List.getElem?_eq_some_iff.mp hfile).1 ▸ hfile
    · exact List.getElem?_append_left (List.getElem?_eq_some_iff.mp hfile).1 ▸ hfile
  exclusive := h.exclusive
  entries := h.entries
  storages id' storage hstorage := by
    obtain ⟨file, hfile, hid⟩ := h.storages id' storage hstorage
    refine ⟨file, ?_, hid⟩
    exact List.getElem?_append_left (List.getElem?_eq_some_iff.mp hfile).1 ▸ hfile
  files node file hfile := by
    rw [List.getElem?_append] at hfile
    split at hfile
    · exact ⟨(h.files node file hfile).1, (h.files node file hfile).2, (h.files node file hfile).3⟩
    · rename_i hnode
      have hempty := ofNode_fresh h (Nat.not_lt.mp hnode)
      have hfresh : file = .fresh id seed increment := by
        rw [List.getElem?_singleton] at hfile
        split at hfile
        · exact (Option.some.inj hfile).symm
        · cases hfile
      subst hfresh
      refine ⟨hne, ?_, ?_⟩
      · show Chained _ _ (s.ofNode node)
        rw [hempty]
        trivial
      · show following _ (s.ofNode node) = _
        rw [hempty]
        simp [following, firstValue, File.fresh]
  reserved e he := by
    refine ⟨?_, (h.reserved e he).2⟩
    rw [List.length_append]
    exact Nat.lt_add_right _ (h.reserved e he).1
  pending j e hj := ⟨(h.pending j e hj).1, (h.pending j e hj).2, (h.pending j e hj).3⟩
  handed := h.handed
  once := h.once

/-- What a session sees is committed. -/
theorem Inv.committed (h : Inv hash s) (hpc : (s.sessions i).pc = .idle) :
    Inv hash {s with entries := s.entry i, storages := s.storage i} where
  session j := by
    by_cases hj : j = i
    · subst hj
      refine ⟨(h.session j).sound, ?_⟩
      show AtPc hash _ j (s.sessions j).pc
      rw [hpc]
      trivial
    · refine Kept.sessionOk (s := s) ⟨rfl, fun _ _ hid => hid, fun _ file hfile => ⟨file, hfile, rfl, rfl⟩,
        fun _ hkey => hkey, fun id identity hmade hlock => ?_, fun _ _ _ _ hfile _ => hfile⟩ h
      -- what is committed was written under a lock that no other session shares
      refine storagesOf_of_not_mem fun storage hmem => ?_
      obtain ⟨⟨identity', hmade', hexclusive⟩, -⟩ := (h.session i).written hmem
      obtain rfl := Option.some.inj (hmade.symm.trans hmade')
      exact h.exclusive i j _ (Ne.symm hj) hexclusive _ hlock
  exclusive := h.exclusive
  entries identity id hid := h.entry_made hid
  storages id storage hstorage := h.storage_ok hstorage
  files node file hfile := ⟨(h.files node file hfile).1, (h.files node file hfile).2, (h.files node file hfile).3⟩
  reserved := h.reserved
  pending j e hj := ⟨(h.pending j e hj).1, (h.pending j e hj).2, (h.pending j e hj).3⟩
  handed := h.handed
  once := h.once

theorem ofNode_cons (e : Nat × Range) (node : Nat) :
    State.ofNode {s with reserved := e :: s.reserved} node =
      if e.1 = node then e.2 :: s.ofNode node else s.ofNode node := by
  simp only [State.ofNode, List.filter_cons, decide_eq_true_eq]
  split
  · rfl
  · rfl

/-- The next range of a file. -/
def File.range (file : File) (count : Int) : Range :=
  ⟨firstValue file.increment file.lastValue file.isCalled, count.toNat, file.increment⟩

/-- A file after `setval`. -/
def File.advanced (file : File) (count : Int) : File :=
  {file with
    lastValue := finalValue (firstValue file.increment file.lastValue file.isCalled) count
      file.increment
    isCalled := true}

/-- What `setval` changes. -/
def State.reserve (s : State n) (node : Nat) (file : File) (count : Int) : State n :=
  {s with
    files := s.files.set node (file.advanced count)
    reserved := (node, file.range count) :: s.reserved}

theorem advanced_next {file : File} (hcount : 1 ≤ count) :
    (file.range count).next = firstValue file.increment (file.advanced count).lastValue true := by
  have hcast : (count.toNat : Int) = count := Int.toNat_of_nonneg (by omega)
  simp only [Range.next, Range.number, File.range, File.advanced, hcast, finalValue, firstValue, if_true]
  ring

theorem getElem?_set_some {files : List File} {node' : Nat} {file file' : File}
    (h : (files.set node file)[node']? = some file') :
    node = node' ∧ file' = file ∨ node ≠ node' ∧ files[node']? = some file' := by
  rw [List.getElem?_set] at h
  split at h
  · rename_i heq
    split at h
    · exact .inl ⟨heq, (Option.some.inj h).symm⟩
    · cases h
  · rename_i hne
    exact .inr ⟨hne, h⟩

/-- A session that is about to write a sequence's next value holds its allocation lock. -/
theorem Inv.setting_holds (h : Inv hash s) {j : Fin n} {id : Nat}
    (hset : (s.sessions j).pc.setting = some id) (hmade : s.made[id]? = some identity) :
    Holds s j (allocationKey hash identity) := by
  have hat := (h.session j).pc
  cases hpc : (s.sessions j).pc with
  | setLast op identity' id' count properties first =>
    rw [hpc] at hat hset
    obtain rfl := Option.some.inj hset
    obtain rfl := Option.some.inj (hat.2.2.1.symm.trans hmade)
    exact hat.2.1
  | _ =>
    rw [hpc] at hset
    cases hset

/-- A range is reserved of a file that no other session is about to write. -/
theorem Inv.reserve (h : Inv hash s) {file : File}
    (hholds : Holds s i (allocationKey hash identity)) (hset : (s.sessions i).pc.setting = none)
    (hfile : s.files[node]? = some file) (hmade : s.made[file.id]? = some identity) (hcount : 1 ≤ count)
    (hbounds : (Properties.created file.increment).exceeded (file.range count).first
      (file.advanced count).lastValue = false) :
    Inv hash (s.reserve node file count) where
  session j := by
    refine Kept.sessionOk (s := s) ⟨rfl, fun _ _ hid => hid, fun node' file' hfile' => ?_,
      fun _ hkey => hkey, fun _ _ _ _ => rfl, fun id hid node' file' hfile' hfileId => ?_⟩ h
    · dsimp only [State.reserve]
      by_cases heq : node = node'
      · subst heq
        obtain rfl := Option.some.inj (hfile.symm.trans hfile')
        rw [List.getElem?_set_self (List.getElem?_eq_some_iff.mp hfile).1]
        exact ⟨_, rfl, rfl, rfl⟩
      · rw [List.getElem?_set_ne heq]
        exact ⟨file', hfile', rfl, rfl⟩
    · have hne : node ≠ node' := by
        rintro rfl
        obtain rfl := Option.some.inj (hfile.symm.trans hfile')
        subst hfileId
        obtain rfl := hholds.unique (h.setting_holds hid hmade)
        rw [hset] at hid
        cases hid
      dsimp only [State.reserve]
      rw [List.getElem?_set_ne hne, hfile']
  exclusive := h.exclusive
  entries := h.entries
  storages id storage hstorage := by
    obtain ⟨file', hfile', hid, hproperties⟩ := h.storages id storage hstorage
    by_cases heq : node = storage.node
    · subst heq
      obtain rfl := Option.some.inj (hfile.symm.trans hfile')
      refine ⟨file.advanced count, ?_, hid, hproperties⟩
      exact List.getElem?_set_self (List.getElem?_eq_some_iff.mp hfile).1
    · exact ⟨file', (List.getElem?_set_ne heq).trans hfile', hid, hproperties⟩
  files node' file' hfile' := by
    have hcons := ofNode_cons (s := s) (node, file.range count) node'
    rcases getElem?_set_some hfile' with ⟨rfl, rfl⟩ | ⟨hne, hold⟩
    · have hok := h.files node file hfile
      rw [if_pos rfl] at hcons
      refine ⟨hok.increment, ?_, ?_⟩
      · exact (congrArg (Chained _ _) hcons).mpr ⟨rfl, hok.next.symm, hok.chained⟩
      · exact (congrArg (following _) hcons).trans (advanced_next hcount)
    · have hok := h.files node' file' hold
      rw [if_neg hne] at hcons
      refine ⟨hok.increment, ?_, ?_⟩
      · exact (congrArg (Chained _ _) hcons).mpr hok.chained
      · exact (congrArg (following _) hcons).trans hok.next
  reserved e he := by
    dsimp only [State.reserve]
    rw [List.length_set]
    rcases List.mem_cons.mp he with rfl | hold
    · refine ⟨(List.getElem?_eq_some_iff.mp hfile).1, ?_, ?_⟩
      · show 1 ≤ count.toNat
        omega
      · have hcast : (count.toNat : Int) = count := Int.toNat_of_nonneg (by omega)
        show (Properties.created file.increment).exceeded _
          (finalValue _ (count.toNat : Int) file.increment) = false
        rw [hcast]
        exact hbounds
    · exact h.reserved e hold
  pending j e hj := ⟨List.mem_cons_of_mem _ (h.pending j e hj).1, (h.pending j e hj).2, (h.pending j e hj).3⟩
  handed e he := List.mem_cons_of_mem _ (h.handed e he)
  once := h.once

/-- A range that goes on where a file stands has not been reserved before. -/
theorem FileOk.range_fresh {file : File} (h : FileOk s node file)
    (hcount : 1 ≤ count) : (node, file.range count) ∉ s.reserved := by
  intro hmem
  have hold : file.range count ∈ s.ofNode node :=
    List.mem_map.mpr ⟨_, List.mem_filter.mpr ⟨hmem, by simp⟩, rfl⟩
  have hchained : Chained file.seed file.increment (file.range count :: s.ofNode node) :=
    ⟨rfl, h.next.symm, h.chained⟩
  have hpos : 0 < (file.range count).count := by
    show 0 < count.toNat
    omega
  have hdisjoint := (List.pairwise_cons.mp (hchained.disjoint h.increment)).1
  exact hdisjoint _ hold 0 hpos 0 hpos rfl

/-- A call has returned what it reserved. -/
theorem Inv.hand (h : Inv hash s) {e : Nat × Range} (hreserved : e ∈ s.reserved)
    (hfresh : e ∉ s.handed) (hnone : ∀ j, (s.sessions j).pc.range ≠ some e) :
    Inv hash {s with handed := e :: s.handed} where
  session j := Kept.sessionOk (s := s) ⟨rfl, fun _ _ hid => hid, fun _ file hfile =>
    ⟨file, hfile, rfl, rfl⟩, fun _ hkey => hkey, fun _ _ _ _ => rfl, fun _ _ _ _ hfile _ => hfile⟩ h
  exclusive := h.exclusive
  entries := h.entries
  storages := h.storages
  files node file hfile := ⟨(h.files node file hfile).1, (h.files node file hfile).2, (h.files node file hfile).3⟩
  reserved := h.reserved
  pending j e' hj := by
    refine ⟨(h.pending j e' hj).1, ?_, (h.pending j e' hj).3⟩
    rintro (_ | ⟨_, hold⟩)
    · exact hnone j hj
    · exact (h.pending j e' hj).2 hold
  handed e' he' := by
    rcases List.mem_cons.mp he' with rfl | hold
    · exact hreserved
    · exact h.handed e' hold
  once := List.nodup_cons.mpr ⟨hfresh, h.once⟩

/-- `setval`: the call writes on from what it read. -/
theorem Inv.setLast (h : Inv hash s) {entryId : Nat}
    {properties : Properties} {first : Int} {storage : Storage} {file : File}
    (hpc : (s.sessions i).pc = .setLast op identity entryId count properties first)
    (hbounds : properties.exceeded first (finalValue first count properties.seqincrement) = false)
    (hstorage : s.storage i entryId = some storage)
    (hfile : s.files[storage.node]? = some file) :
    Inv hash {s.put i {s.sessions i with
        pc := .blockEnd op identity (some ⟨some first, some properties.seqincrement, true,
          some (storage.node, ⟨first, count.toNat, properties.seqincrement⟩)⟩)} with
      files := s.files.set storage.node {file with
        lastValue := finalValue first count properties.seqincrement
        isCalled := true}
      reserved := (storage.node, ⟨first, count.toNat, properties.seqincrement⟩) :: s.reserved} := by
  have hat := (h.session i).pc
  rw [hpc] at hat
  obtain ⟨hlock, hholds, hmade, hcount, storage', file', hstorage', hproperties, hfile', hfirst⟩ := hat
  obtain rfl := Option.some.inj (hstorage.symm.trans hstorage')
  obtain rfl := Option.some.inj (hfile.symm.trans hfile')
  obtain ⟨file', hfile', hid, hcreated⟩ := h.storage_ok hstorage
  obtain rfl := Option.some.inj (hfile.symm.trans hfile')
  obtain rfl : properties = .created file.increment := hproperties.symm.trans hcreated
  subst hfirst
  have hfresh := (h.files _ file hfile).range_fresh hcount
  -- the session first leaves its statement: then what it read may change
  have hidle := h.quiet (i := i) (b := {s.sessions i with pc := .idle}) (g := s.held)
    (List.suffix_refl _) (.inl rfl) (fun _ _ _ hk => hk) trivial
  have hreserve : Inv hash ((s.reserve storage.node file count).moved i
      {s.sessions i with pc := .idle} s.held) :=
    hidle.reserve (i := i) hholds (by rw [moved_own]; rfl) hfile (hid ▸ hmade) hcount hbounds
  have hput := hreserve.put (i := i) (g := s.held) (b := {s.sessions i with
      pc := .blockEnd op identity (some ⟨some (file.range count).first, some file.increment, true,
        some (storage.node, file.range count)⟩)})
    (by have hsound := (hreserve.session i).sound; rwa [moved_own] at hsound)
    (fun key exclusive hmem => .inl (moved_hasLock.mpr hmem)) (fun e heq => ?_)
    (fun _ _ _ hk => hk) trivial
  · rw [moved_moved] at hput
    exact hput
  · obtain rfl := Option.some.inj heq
    refine ⟨List.mem_cons_self .., fun hmem => hfresh (h.handed _ hmem), fun j hj hpending => ?_⟩
    rw [moved_other hj] at hpending
    exact hfresh (h.pending j _ hpending).reserved

/-! ### Runs -/

theorem Inv.step {t : State n} (h : Inv hash s) (hstep : Step hash s t) : Inv hash t := by
  have hsame : ∀ i k : Fin n, k ≠ i → ∀ key, Holds s k key → ∃ count, s.held key = some (k, count) :=
    fun _ _ _ _ hk => hk
  cases hstep with
  | begin i hnone hpc =>
    exact h.quiet List.nil_suffix (.inl rfl) (hsame i) trivial
  | savepoint i hin hpc hok =>
    exact h.quiet (List.suffix_refl _) (.inr rfl) (hsame i) (by rw [hpc]; trivial)
  | rollbackTo i hpc hsavepoint =>
    exact h.quiet (by rw [done_savepoint]; exact done_suffix (undo_suffix _)) (.inr rfl) (hsame i)
      (by rw [hpc]; trivial)
  | release i hpc hok =>
    exact h.quiet (done_release_suffix _) (.inr rfl) (hsame i)
      (by rw [hpc]; trivial)
  | commit i hpc hok =>
    exact (h.committed hpc).quiet (g := s.held) List.nil_suffix (.inl rfl) (hsame i) trivial
  | rollback i hpc =>
    exact h.quiet List.nil_suffix (.inl rfl) (hsame i) trivial
  | disconnect i =>
    refine h.quiet List.nil_suffix (.inl rfl) (fun k hk key hholds => ?_) trivial
    obtain ⟨count, hheld⟩ := hholds
    refine ⟨count, ?_⟩
    rw [hheld, Option.filter_some, if_pos (by simpa using hk)]
  | call i op perCompany companyName sequenceName hin hpc hok =>
    exact h.quiet (List.suffix_refl _) (.inl rfl) (hsame i) trivial
  | lockExclusive i op identity hpc hop hfree =>
    refine h.put (g := s.held) ⟨trivial, (h.session i).sound⟩ (fun key exclusive hmem => ?_)
      (fun e he => by cases he) (hsame i) ⟨fun _ => ?_, fun hallocation => ?_, fun hallocation => ?_⟩
    · rcases List.mem_cons.mp hmem with heq | hold
      · cases heq
        exact .inr hfree
      · exact .inl hold
    · exact moved_hasLock.mpr (List.mem_cons_self ..)
    · rw [not_allocation hop] at hallocation
      cases hallocation
    · rw [not_allocation hop] at hallocation
      cases hallocation
  | lockShared i op identity hpc hop hfree =>
    refine h.put (g := s.held) ⟨trivial, (h.session i).sound⟩ (fun key exclusive hmem => ?_)
      (fun e he => by cases he) (hsame i)
      ⟨hop, not_mutation hop, moved_hasLock.mpr (List.mem_cons_self ..)⟩
    rcases List.mem_cons.mp hmem with heq | hold
    · cases heq
      exact .inr hfree
    · exact .inl hold
  | lockNone i op identity hpc hmutation hallocation =>
    refine h.quiet (List.suffix_refl _) (.inl rfl) (hsame i) ⟨fun hop => ?_, fun hop => ?_, fun hop => ?_⟩
    · rw [hmutation] at hop
      cases hop
    · rw [hallocation] at hop
      cases hop
    · rw [hallocation] at hop
      cases hop
  | lockAllocation i op identity hpc hfree =>
    have hat := (h.session i).pc
    rw [hpc] at hat
    obtain ⟨hallocation, hmutation, hlock⟩ := hat
    refine h.quiet (List.suffix_refl _) (.inl rfl) (acquired_other hfree) ⟨fun hop => ?_, fun _ => ?_,
      fun _ => acquired_holds hfree⟩
    · rw [hmutation] at hop
      cases hop
    · exact moved_hasLock.mpr hlock
  | find i op identity hpc =>
    have hat := (h.session i).pc
    rw [hpc] at hat
    exact h.quiet (List.suffix_refl _) (.inl rfl) (hsame i)
      ⟨hat.moved, fun id hentry => h.entry_made hentry⟩
  | absent i op identity hpc hop =>
    refine h.quiet (List.suffix_refl _) (.inl ?_) (hsame i) trivial
    dsimp only [Pc.range]
    split
    · rfl
    · rfl
  | existing i identity entryId hpc =>
    exact h.quiet (List.suffix_refl _) (.inl rfl) (hsame i) trivial
  | insertEntry i identity seed step hpc hstep hnone =>
    have hat := (h.session i).pc
    rw [hpc] at hat
    have hlock := hat.1.exclusive rfl
    have hmade : (s.made ++ [identity])[s.made.length]? = some identity :=
      List.getElem?_concat_length
    refine (h.made identity).put (g := s.held)
      ⟨⟨hlock, fun id heq => ?_⟩, ((h.made identity).session i).sound⟩ (fun key exclusive hmem => ?_)
          (fun e he => by cases he) (hsame i)
      ⟨moved_hasLock.mpr (List.mem_cons_of_mem _ hlock), hmade, hstep⟩
    · cases heq
      exact hmade
    · rcases List.mem_cons.mp hmem with heq | hold
      · cases heq
      · exact .inl hold
  | createSequence i op identity entryId seed step hpc =>
    have hat := (h.session i).pc
    rw [hpc] at hat
    obtain ⟨hlock, hmade, hne⟩ := hat
    refine (h.file entryId seed hne).put (g := s.held)
      ⟨⟨⟨identity, hmade, hlock⟩, fun row heq => ?_⟩, ((h.file entryId seed hne).session i).sound⟩
      (fun key exclusive hmem => ?_) (fun e he => by cases he) (hsame i) trivial
    · cases heq
      exact ⟨_, List.getElem?_concat_length, rfl, rfl⟩
    · rcases List.mem_cons.mp hmem with heq | hold
      · cases heq
      · exact .inl hold
  | dropSequence i identity entryId storage hpc hstorage =>
    have hat := (h.session i).pc
    rw [hpc] at hat
    have hlock := hat.1.exclusive rfl
    refine h.put (g := s.held)
      ⟨⟨⟨identity, hat.2 entryId rfl, hlock⟩, fun row heq => by cases heq⟩, (h.session i).sound⟩
      (fun key exclusive hmem => ?_) (fun e he => by cases he) (hsame i)
      (moved_hasLock.mpr (List.mem_cons_of_mem _ hlock))
    rcases List.mem_cons.mp hmem with heq | hold
    · cases heq
    · exact .inl hold
  | deleteEntry i op identity entryId hpc =>
    have hat := (h.session i).pc
    rw [hpc] at hat
    refine h.put (g := s.held) ⟨⟨hat, fun id heq => by cases heq⟩, (h.session i).sound⟩
      (fun key exclusive hmem => ?_) (fun e he => by cases he) (hsame i) trivial
    rcases List.mem_cons.mp hmem with heq | hold
    · cases heq
    · exact .inl hold
  | restart i identity seed entryId storage hpc hstorage =>
    have hat := (h.session i).pc
    rw [hpc] at hat
    have hlock := hat.1.exclusive rfl
    obtain ⟨file, hfile, hid, hproperties⟩ := h.storage_ok hstorage
    have hincrement : storage.properties.seqincrement = file.increment := by
      rw [hproperties]
      rfl
    have hne : storage.properties.seqincrement ≠ 0 := by
      rw [hincrement]
      exact (h.files _ file hfile).increment
    refine (h.file entryId seed hne).put (g := s.held)
      ⟨⟨⟨identity, hat.2 entryId rfl, hlock⟩, fun row heq => ?_⟩, ((h.file entryId seed hne).session i).sound⟩
      (fun key exclusive hmem => ?_) (fun e he => by cases he) (hsame i) trivial
    · cases heq
      refine ⟨_, List.getElem?_concat_length, rfl, ?_⟩
      show storage.properties = .created storage.properties.seqincrement
      rw [hincrement, hproperties]
    · rcases List.mem_cons.mp hmem with heq | hold
      · cases heq
      · exact .inl hold
  | current i identity entryId storage file hpc hstorage hfile =>
    exact h.quiet (List.suffix_refl _) (.inl rfl) (hsame i) trivial
  | readProperties i identity count entryId storage hpc hstorage hcount hcache hcycle =>
    have hat := (h.session i).pc
    rw [hpc] at hat
    obtain ⟨hblock, hmade⟩ := hat
    exact h.quiet (List.suffix_refl _) (.inl rfl) (hsame i)
      ⟨moved_hasLock.mpr (hblock.shared rfl), hblock.holds rfl, hmade entryId rfl, hcount, storage,
        moved_storage hstorage rfl, rfl⟩
  | readLast i op identity entryId count properties storage file hpc hstorage hfile =>
    have hat := (h.session i).pc
    rw [hpc] at hat
    obtain ⟨hlock, hholds, hmade, hcount, storage', hstorage', hproperties⟩ := hat
    obtain rfl := Option.some.inj (hstorage.symm.trans hstorage')
    exact h.quiet (List.suffix_refl _) (.inl rfl) (hsame i)
      ⟨moved_hasLock.mpr hlock, hholds, hmade, hcount, storage, file, moved_storage hstorage rfl,
        hproperties, hfile, rfl⟩
  | setLast i op identity entryId count properties first storage file hpc hbounds hstorage hfile =>
    exact h.setLast hpc hbounds hstorage hfile
  | blockEnd i op identity row hpc =>
    exact h.quiet (done_release_suffix _) (.inr (by rw [hpc]; rfl)) (hsame i)
      trivial
  | unlock i op identity row hpc =>
    exact h.quiet (List.suffix_refl _) (.inr (by rw [hpc]; rfl)) released_other trivial
  | leave i row hpc =>
    have hidle := h.quiet (i := i) (b := {s.sessions i with pc := .idle}) (g := s.held)
      (List.suffix_refl _) (.inl rfl) (hsame i) trivial
    have hrange : (s.sessions i).pc.range = row.bind Row.range := by rw [hpc]; rfl
    cases hrow : row.bind Row.range with
    | none => exact hidle
    | some e =>
      have hpending := h.pending i e (hrange.trans hrow)
      refine hidle.hand hpending.reserved hpending.fresh fun j => ?_
      by_cases hj : j = i
      · subst hj
        rw [moved_own]
        exact fun heq => by cases heq
      · rw [moved_other hj]
        exact hpending.own j hj
  | fails i op identity hpc =>
    exact h.quiet (done_suffix (undo_suffix _)) (.inl rfl) (hsame i) trivial
  | handled i op identity hpc =>
    exact h.quiet (List.suffix_refl _) (.inl rfl) released_other trivial
  | failsOutside i op identity row hpc =>
    exact h.quiet (List.suffix_refl _) (.inl rfl) (hsame i) trivial

theorem Inv.interrupt {t : State n} (h : Inv hash s) (hstep : Interrupt s t) : Inv hash t := by
  obtain ⟨i, op, identity, row, hop, hpc⟩ := hstep
  exact h.quiet (List.suffix_refl _) (.inl rfl) (fun _ _ _ hk => hk) trivial

theorem Inv.start : Inv hash ({} : State n) where
  session _ := ⟨trivial, trivial⟩
  exclusive _ _ _ _ hlock := by cases hlock
  entries _ _ hid := by cases hid
  storages _ _ hstorage := by cases hstorage
  files _ _ hfile := by cases hfile
  reserved _ he := by cases he
  pending _ _ hrange := by cases hrange
  handed _ he := by cases he
  once := .nil

theorem Reached.inv (h : Reached hash s) : Inv hash s := by
  refine Reachable.invariant (fun first hfirst => ?_) (fun _ _ hinv hstep => ?_) h
  · subst hfirst
    exact .start
  · rcases hstep with hstep | hstep
    · exact hinv.step hstep
    · exact hinv.interrupt hstep

end Agiru.NumberSequence
