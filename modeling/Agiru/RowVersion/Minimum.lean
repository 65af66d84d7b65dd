import Agiru.RowVersion.Watermark

/-! Every statement keeps the invariant of the watermark, and so does every run. -/
namespace Agiru.RowVersion
open Undo

variable {n : Nat} {s : State n} {i : Fin n}

/-! ### The publication lock -/

theorem acquire_some {global : Option (Fin n × Nat)} (h : s.acquire i = some global) :
    (∃ count, global = some (i, count)) ∧ ∀ k, k ≠ i → ¬ Holds s k := by
  unfold State.acquire at h
  split at h
  · rename_i hfree
    refine ⟨⟨1, (Option.some.inj h).symm⟩, fun k _ hholds => ?_⟩
    obtain ⟨count, hk⟩ := hholds
    rw [hfree] at hk
    cases hk
  · rename_i holder count hheld
    split at h
    · rename_i hmine
      refine ⟨⟨count + 1, (Option.some.inj h).symm⟩, fun k hk hholds => hk ?_⟩
      exact (hholds.unique ⟨count, hheld⟩).trans hmine
    · cases h

theorem unlocked_other {k : Fin n} (hk : k ≠ i) (h : Holds s k) :
    ∃ count, s.unlocked i = some (k, count) := by
  obtain ⟨count, hheld⟩ := h
  unfold State.unlocked
  rw [hheld]
  exact ⟨count, if_neg hk⟩

theorem global_other {global : Option (Fin n × Nat)} (hglobal : global ∈ [s.global, s.unlocked i])
    (k : Fin n) (hk : k ≠ i) (h : Holds s k) : ∃ count, global = some (k, count) := by
  rw [List.mem_pair] at hglobal
  rcases hglobal with rfl | rfl
  · exact h
  · exact unlocked_other hk h

/-! ### What only grows -/

/-- The sequence has drawn its next value. -/
theorem Inv.drawn (h : Inv s) (hlast : s.last < maxValue) : Inv {s with last := s.last + 1} where
  session j :=
    { sound := (h.session j).sound
      locks := fun key hkey => by
        obtain ⟨f, rfl, hpos, hle, hmarks⟩ := (h.session j).locks key hkey
        exact ⟨f, rfl, hpos, Nat.le_succ_of_le hle, hmarks⟩
      pc := (h.session j).pc }
  last := hlast
  marks m hm := by
    have hle := h.marks m hm
    dsimp only
    omega
  xid := h.xid
  foreign := h.foreign
  pending j value hj := ⟨Nat.le_succ_of_le (h.pending j value hj).1, (h.pending j value hj).2⟩
  handed e he := ⟨Nat.le_succ_of_le (h.handed e he).1, (h.handed e he).2⟩
  ordered := h.ordered
  answers := h.answers

/-- The value that was drawn is greater than all before it. -/
theorem Inv.drawn_next (h : Inv s) (i : Fin n) (xid : Option Nat) :
    Drawn {s with last := s.last + 1} i xid (s.last + 1) := by
  refine ⟨Nat.le_refl _, fun e he => ?_, fun j _ hj => ?_⟩
  · have hle := (h.handed e he).1
    exact ⟨by omega, fun _ => by omega⟩
  · have hle := (h.pending j _ hj).1
    omega

/-- A transaction identifier has been given out. -/
theorem Inv.begun (h : Inv s) : Inv {s with nextXid := s.nextXid + 1} where
  session j := ⟨(h.session j).sound, (h.session j).locks, (h.session j).pc⟩
  last := h.last
  marks := h.marks
  xid j xid hj := ⟨Nat.lt_succ_of_lt (h.xid j xid hj).1, (h.xid j xid hj).2⟩
  foreign := h.foreign
  pending := h.pending
  handed e he := ⟨(h.handed e he).1, Nat.lt_succ_of_lt (h.handed e he).2.1, (h.handed e he).2.2⟩
  ordered := h.ordered
  answers := h.answers

/-- The holder of the publication lock has found a mark that no fence is below. -/
theorem Inv.marked (h : Inv s) (hholds : Holds s i)
    (hnot : ∀ value, (s.sessions i).pc ≠ .nextFence value) {m : Int} (hlast : m ≤ s.last + 1)
    (hleast : ∀ j f, Fence s j f → m ≤ (f : Int)) : Inv {s with marks := m :: s.marks} where
  session j :=
    { sound := (h.session j).sound
      locks := fun key hkey => by
        obtain ⟨f, rfl, hpos, hle, hmarks⟩ := (h.session j).locks key hkey
        refine ⟨f, rfl, hpos, hle, fun m' hm' => ?_⟩
        rcases List.mem_cons.mp hm' with rfl | hm'
        · exact hleast j f hkey
        · exact hmarks m' hm'
      pc := by
        have hpc := (h.session j).pc
        dsimp only
        cases hat : (s.sessions j).pc with
        | idle | nextLock => trivial
        | nextFast | nextValue =>
          rw [hat] at hpc
          exact hpc
        | nextFence value =>
          rw [hat] at hpc
          obtain rfl := hpc.1.unique hholds
          exact absurd hat (hnot value)
        | nextSet value | nextUnlock value | nextReturn value =>
          rw [hat] at hpc
          exact hpc
        | minLock before =>
          rw [hat] at hpc
          exact fun m' hm' => List.mem_cons_of_mem _ (hpc m' hm')
        | minRead before =>
          rw [hat] at hpc
          exact ⟨hpc.1, fun m' hm' => List.mem_cons_of_mem _ (hpc.2 m' hm')⟩
        | minLast before =>
          rw [hat] at hpc
          exact ⟨hpc.1, fun m' hm' => List.mem_cons_of_mem _ (hpc.2.1 m' hm'), hpc.2.2⟩
        | minUnlock before value =>
          rw [hat] at hpc
          exact ⟨hpc.1, List.mem_cons_of_mem _ hpc.2.1, hpc.2.2⟩
        | minReturn before value =>
          rw [hat] at hpc
          exact ⟨List.mem_cons_of_mem _ hpc.1, hpc.2⟩ }
  last := h.last
  marks m' hm' := by
    rcases List.mem_cons.mp hm' with rfl | hm'
    · exact hlast
    · exact h.marks m' hm'
  xid := h.xid
  foreign := h.foreign
  pending := h.pending
  handed := h.handed
  ordered := h.ordered
  answers a ha := ⟨List.mem_cons_of_mem _ (h.answers a ha).1, (h.answers a ha).2⟩

/-- What had been answered is a mark. -/
theorem Inv.answered (h : Inv s) {m : Int} (hm : m ∈ s.answered) : m ∈ s.marks := by
  obtain ⟨a, ha, rfl⟩ := List.mem_map.mp hm
  exact (h.answers a ha).1

/-- A version that was drawn is returned. -/
theorem Inv.hand (h : Inv s) {xid value : Nat} (hdrawn : Drawn s i (some xid) value)
    (hxid : (s.sessions i).xid = some xid) (hpc : (s.sessions i).pc.pending = none)
    (hmarks : ∀ m ∈ s.marks, m ≤ (value : Int)) :
    Inv {s with handed := ⟨xid, value, s.answered⟩ :: s.handed} where
  session j := ⟨(h.session j).sound, (h.session j).locks, (h.session j).pc⟩
  last := h.last
  marks := h.marks
  xid := h.xid
  foreign := h.foreign
  pending j value' hj := by
    have hold := h.pending j value' hj
    refine ⟨hold.1, fun e he => ?_, hold.2.2⟩
    rcases List.mem_cons.mp he with rfl | he
    · have hji : j ≠ i := by
        rintro rfl
        rw [hpc] at hj
        cases hj
      refine ⟨?_, fun hsame => absurd hsame ?_⟩
      · rintro rfl
        exact hdrawn.2.2 j hji hj
      · exact (h.xid i xid hxid).2 j hji
    · exact hold.2.1 e he
  handed e he := by
    rcases List.mem_cons.mp he with rfl | he
    · exact ⟨hdrawn.1, (h.xid i xid hxid).1, fun m hm => hmarks m (h.answered hm)⟩
    · exact h.handed e he
  ordered := by
    refine List.pairwise_cons.mpr ⟨fun e he => ⟨(hdrawn.2.1 e he).1, fun hsame => ?_⟩, h.ordered⟩
    exact (hdrawn.2.1 e he).2 (congrArg some hsame.symm)
  answers := h.answers

/-- A mark is returned. -/
theorem Inv.answer (h : Inv s) {value : Int} {before : List Int} (hvalue : value ∈ s.marks)
    (hbefore : ∀ m ∈ before, m ≤ value) : Inv {s with answers := ⟨value, before⟩ :: s.answers} where
  session j := ⟨(h.session j).sound, (h.session j).locks, (h.session j).pc⟩
  last := h.last
  marks := h.marks
  xid := h.xid
  foreign := h.foreign
  pending := h.pending
  handed := h.handed
  ordered := h.ordered
  answers a ha := by
    rcases List.mem_cons.mp ha with rfl | ha
    · exact ⟨hvalue, hbefore⟩
    · exact h.answers a ha

/-- Every mark is at most any value that a fence is not above. -/
theorem Inv.marks_le_of_fence (h : Inv s) {f value : Nat} (hf : Fence s i f) (hle : f ≤ value) :
    ∀ m ∈ s.marks, m ≤ (value : Int) := by
  intro m hm
  obtain ⟨g, heq, -, -, hmarks⟩ := (h.session i).locks _ hf
  have hmg := hmarks m hm
  omega

/-- At a minimum that is being read, every mark so far is at most what it finds. -/
theorem Inv.marks_le_min (h : Inv s) {before : List Int} (hbefore : ∀ m ∈ before, m ∈ s.marks)
    {value : Int} (hvalue : minFence s.lockTable = some value) : ∀ m ∈ before, m ≤ value := by
  intro m hm
  obtain ⟨⟨j, f, hf, rfl⟩, -⟩ := h.minFence_some hvalue
  exact h.marks_le_of_fence hf (Nat.le_refl f) m (hbefore m hm)

theorem fence_mem {session : Session} {tag value : Nat} (h : session.fence = some (tag, value)) :
    .setting tag value ∈ done session.log := by
  obtain ⟨effect, hmem, heq⟩ := List.exists_of_findSome?_eq_some h
  cases effect with
  | lock key => cases heq
  | setting tag' value' =>
    cases heq
    exact hmem
  | version value' => cases heq

/-- A setting in force has its fence. -/
theorem Inv.fence_of_setting (h : Inv s) {tag value : Nat}
    (hmem : .setting tag value ∈ done (s.sessions i).log) : ∃ f, Fence s i f := by
  obtain ⟨before, hsuffix, hneeds⟩ := (h.session i).sound.needs_of_mem hmem
  exact ⟨value, hsuffix.subset hneeds⟩

theorem Inv.fence_le (h : Inv s) {f : Nat} (hf : Fence s i f) : f ≤ s.last := by
  obtain ⟨g, heq, -, hle, -⟩ := (h.session i).locks _ hf
  omega

/-! ### Runs -/

theorem Inv.step {s t : State n} (h : Inv s) (hstep : Step s t) : Inv t := by
  have hsame : ∀ i k : Fin n, k ≠ i → Holds s k → ∃ count, s.global = some (k, count) :=
    fun _ _ _ hk => hk
  cases hstep with
  | begin i hxid hpc =>
    refine h.begun.moved (g := s.global) trivial (fun key hkey => by cases hkey)
      (fun xid heq => ?_) (fun value heq => by cases heq) (hsame i) trivial
    obtain rfl := Option.some.inj heq
    exact ⟨Nat.lt_succ_self _, fun j _ hj => Nat.lt_irrefl _ (h.xid j _ hj).1⟩
  | savepoint i xid hxid hpc hok =>
    exact h.quiet (List.suffix_refl _) (.inl rfl) (by rw [hpc]; rfl) (hsame i) (by rw [hpc]; trivial)
  | rollbackTo i hpc hsavepoint =>
    exact h.quiet (by rw [done_savepoint]; exact done_suffix (undo_suffix _)) (.inl rfl)
      (by rw [hpc]; rfl) (hsame i) (by rw [hpc]; trivial)
  | release i hpc hok =>
    exact h.quiet (done_release_suffix _) (.inl rfl) (by rw [hpc]; rfl)
      (hsame i) (by rw [hpc]; trivial)
  | finish i hpc =>
    exact h.quiet (List.nil_suffix) (.inr rfl) rfl (hsame i) trivial
  | disconnect i =>
    refine h.quiet (List.nil_suffix) (.inr rfl) rfl (fun k hk hholds => ?_) trivial
    obtain ⟨count, hheld⟩ := hholds
    refine ⟨count, ?_⟩
    rw [hheld, Option.filter_some, if_pos (by simpa using hk)]
  | nextFenced i xid value hxid hpc hok hfence =>
    refine h.quiet (List.suffix_refl _) (.inl rfl) rfl (hsame i) ?_
    obtain ⟨f, hf⟩ := h.fence_of_setting (fence_mem hfence)
    exact ⟨f, moved_fence_own.mpr hf⟩
  | nextUnfenced i xid hxid hpc hok hfence =>
    exact h.quiet (List.suffix_refl _) (.inl rfl) rfl (hsame i) trivial
  | nextFast i xid hxid hpc hlast =>
    have hat := (h.session i).pc
    rw [hpc] at hat
    obtain ⟨f, hf⟩ := hat
    have hdrawn := h.drawn_next i (some xid)
    have hlog : needs (.version (s.last + 1)) (done (s.sessions i).log) :=
      ⟨f, hf, Nat.le_succ_of_le (h.fence_le hf)⟩
    have hmoved := (h.drawn hlast).put (i := i) (b := {s.sessions i with
        log := .effect (.version (s.last + 1)) :: (s.sessions i).log
        pc := .idle})
      (g := s.global) ⟨hlog, (h.session i).sound⟩ (fun key hkey => ?_) rfl
      (fun value heq => by cases heq) (hsame i) trivial
    · exact hmoved.hand hdrawn.moved (moved_own ▸ hxid) (by rw [moved_own]; rfl) h.marks
    · rcases List.mem_cons.mp hkey with heq | hold
      · cases heq
      · exact .inl hold
  | nextLock i global hpc hacquire =>
    obtain ⟨hmine, hfree⟩ := acquire_some hacquire
    exact h.quiet (List.suffix_refl _) (.inl rfl) rfl (fun k hk hk' => absurd hk' (hfree k hk)) hmine
  | nextValue i hpc hlast =>
    have hat := (h.session i).pc
    rw [hpc] at hat
    refine (h.drawn hlast).put (g := s.global) (h.session i).sound (fun key hkey => .inl hkey)
      rfl (fun value heq => ?_) (hsame i) ⟨hat, Nat.le_add_left _ _, h.marks⟩
    obtain rfl := Option.some.inj heq
    exact h.drawn_next i (s.sessions i).xid
  | nextFence i value hpc hfree =>
    have hat := (h.session i).pc
    rw [hpc] at hat
    obtain ⟨hholds, hpos, hmarks⟩ := hat
    have hdrawn := h.pending i value (by rw [hpc]; rfl)
    refine h.put (g := s.global) ⟨trivial, (h.session i).sound⟩ (fun key hkey => ?_) rfl
      (fun value' heq => ?_) (hsame i) ⟨hholds, moved_fence_own.mpr (List.mem_cons_self ..)⟩
    · rcases List.mem_cons.mp hkey with heq | hold
      · obtain rfl := Effect.lock.inj heq
        exact .inr ⟨hholds, value, rfl, hpos, hdrawn.1, hmarks⟩
      · exact .inl hold
    · obtain rfl := Option.some.inj heq
      exact hdrawn
  | nextSet i xid value hxid hpc =>
    have hat := (h.session i).pc
    rw [hpc] at hat
    have hdrawn := h.pending i value (by rw [hpc]; rfl)
    refine h.put (g := s.global) ⟨hat.2, (h.session i).sound⟩ (fun key hkey => ?_) rfl
      (fun value' heq => ?_) (hsame i)
      ⟨hat.1, moved_fence_own.mpr (List.mem_cons_of_mem _ hat.2)⟩
    · rcases List.mem_cons.mp hkey with heq | hold
      · cases heq
      · exact .inl hold
    · obtain rfl := Option.some.inj heq
      exact hdrawn
  | nextUnlock i value hpc =>
    have hat := (h.session i).pc
    rw [hpc] at hat
    have hdrawn := h.pending i value (by rw [hpc]; rfl)
    refine h.put (h.session i).sound (fun key hkey => .inl hkey) rfl (fun value' heq => ?_)
      (fun k hk => unlocked_other hk) (moved_fence_own.mpr hat.2)
    obtain rfl := Option.some.inj heq
    exact hdrawn
  | nextReturn i xid value hxid hpc =>
    have hat := (h.session i).pc
    rw [hpc] at hat
    have hdrawn := h.pending i value (by rw [hpc]; rfl)
    rw [hxid] at hdrawn
    have hlog : needs (.version value) (done (release (s.sessions i).log)) := by
      rw [done_release]
      exact ⟨value, hat, Nat.le_refl _⟩
    have hmoved := h.put (i := i) (b := {s.sessions i with
        log := .effect (.version value) :: release (s.sessions i).log
        pc := .idle})
      (g := s.global) ⟨hlog, by rw [done_release]; exact (h.session i).sound⟩
      (fun key hkey => ?_) rfl (fun value heq => by cases heq) (hsame i) trivial
    · exact hmoved.hand hdrawn.moved (moved_own ▸ hxid) (by rw [moved_own]; rfl)
        (h.marks_le_of_fence hat (Nat.le_refl _))
    · rw [done_effect, done_release] at hkey
      rcases List.mem_cons.mp hkey with heq | hold
      · cases heq
      · exact .inl hold
  | minCall i xid hxid hpc hok =>
    exact h.quiet (List.suffix_refl _) (.inl rfl) rfl (hsame i) fun m hm => h.answered hm
  | minLock i before global hpc hacquire =>
    obtain ⟨hmine, hfree⟩ := acquire_some hacquire
    have hat := (h.session i).pc
    rw [hpc] at hat
    exact h.quiet (List.suffix_refl _) (.inl rfl) rfl (fun k hk hk' => absurd hk' (hfree k hk))
      ⟨hmine, hat⟩
  | minSome i before value hpc hvalue =>
    have hat := (h.session i).pc
    rw [hpc] at hat
    obtain ⟨⟨j, f, hf, hfence⟩, hleast⟩ := h.minFence_some hvalue
    have hlast : value ≤ s.last + 1 := by
      have hle := h.fence_le hf
      omega
    have hmarked := h.marked hat.1 (fun _ heq => by cases hpc.symm.trans heq) hlast hleast
    exact hmarked.quiet (List.suffix_refl _) (.inl rfl) rfl (hsame i)
      ⟨hat.1, List.mem_cons_self .., h.marks_le_min hat.2 hvalue⟩
  | minNull i before hpc hnull =>
    have hat := (h.session i).pc
    rw [hpc] at hat
    refine h.quiet (List.suffix_refl _) (.inl rfl) rfl (hsame i) ⟨hat.1, hat.2, fun j f hf => ?_⟩
    by_cases hj : j = i
    · subst hj
      rw [Fence, moved_own] at hf
      exact h.minFence_none hnull j f hf
    · exact h.minFence_none hnull j f ((moved_fence_other hj).mp hf)
  | minLast i before hpc hlast =>
    have hat := (h.session i).pc
    rw [hpc] at hat
    have hmarked := h.marked hat.1 (fun _ heq => by cases hpc.symm.trans heq) (Int.le_refl _)
      fun j f hf => absurd hf (hat.2.2 j f)
    exact hmarked.quiet (List.suffix_refl _) (.inl rfl) rfl (hsame i)
      ⟨hat.1, List.mem_cons_self .., fun m hm => h.marks m (hat.2.1 m hm)⟩
  | minUnlock i before value hpc =>
    have hat := (h.session i).pc
    rw [hpc] at hat
    exact h.quiet (List.suffix_refl _) (.inl rfl) rfl (fun k hk => unlocked_other hk) hat.2
  | minReturn i before value hpc =>
    have hat := (h.session i).pc
    rw [hpc] at hat
    have hquiet := h.quiet (i := i) (g := s.global) (b := {s.sessions i with pc := .idle})
      (List.suffix_refl _) (.inl rfl) rfl (hsame i) trivial
    exact hquiet.answer hat.1 hat.2
  | nextFails i global hpc hglobal =>
    exact h.quiet (done_suffix (undo_suffix _)) (.inl rfl) rfl (global_other hglobal) trivial
  | minFails i global hpc hglobal =>
    exact h.quiet (List.suffix_refl _) (.inl rfl) rfl (global_other hglobal) trivial
  | foreign rows hrows =>
    exact ⟨fun j => ⟨(h.session j).sound, (h.session j).locks, (h.session j).pc⟩, h.last, h.marks,
      h.xid, hrows, h.pending, h.handed, h.ordered, h.answers⟩

theorem Inv.start {last : Nat} (hlast : last ≤ maxValue) : Inv ({last} : State n) where
  session _ := ⟨trivial, fun key hkey => (by cases hkey), trivial⟩
  last := hlast
  marks m hm := by cases hm
  xid _ xid hxid := by cases hxid
  foreign row hrow := by cases hrow
  pending _ value hvalue := by cases hvalue
  handed e he := by cases he
  ordered := .nil
  answers a ha := by cases ha

theorem Reached.inv (h : Reached s) : Inv s := by
  refine Reachable.invariant (fun first hfirst => ?_) (fun _ _ hinv hstep => hinv.step hstep) h
  obtain ⟨last, hlast, rfl⟩ := hfirst
  exact .start hlast

/-- A version of a transaction that is running, and has not rolled it back, is at least every
mark. -/
theorem Inv.mark_le_version (h : Inv s) {m : Int} (hm : m ∈ s.marks) {i : Fin n} {value : Nat}
    (hvalue : value ∈ (s.sessions i).versions) : m ≤ value := by
  obtain ⟨before, hsuffix, f, hf, hle⟩ := (h.session i).sound.needs_of_mem (mem_versions.mp hvalue)
  exact h.marks_le_of_fence (hsuffix.subset hf) hle m hm

/-- In every run: a version below an answer of the minimum is no running transaction's, unless
it was rolled back; a version handed out is at least every answer that came before; versions
are handed out once, and increase along a transaction; and answers do not decrease. -/
theorem minimum_is_low_water_mark {s : State n} (h : Reached s) :
    (∀ a ∈ s.answers, ∀ e ∈ s.handed, e.version < a.value →
      ∀ i, e.version ∉ (s.sessions i).versions) ∧
    (∀ e ∈ s.handed, ∀ m ∈ e.before, m ≤ e.version) ∧
    (s.handed.Pairwise fun later earlier => earlier.version ≠ later.version ∧
      (earlier.xid = later.xid → earlier.version < later.version)) ∧
    ∀ a ∈ s.answers, ∀ m ∈ a.before, m ≤ a.value := by
  have hinv := h.inv
  refine ⟨fun a ha e _ hlt i hversion => ?_, fun e he => (hinv.handed e he).2.2, hinv.ordered,
    fun a ha => (hinv.answers a ha).2⟩
  have hle := hinv.mark_le_version (hinv.answers a ha).1 hversion
  omega

/-- Two sessions are handed a version each, one inside the other's call; the minimum that the second asks for is
the version of the first. -/
theorem minimum_is_low_water_mark_of_two : ∃ s : State 2,
    s.handed.map Handed.version = [2, 1] ∧ s.answers.map Answer.value = [1] ∧
    ∀ a ∈ s.answers, ∀ e ∈ s.handed, e.version < a.value → ∀ i, e.version ∉ (s.sessions i).versions := by
  have h : Reached ({} : State 2) := ⟨_, ⟨0, by decide, rfl⟩, .refl⟩
  have h := (h.step (.begin 0 rfl rfl)).step (.begin 1 rfl rfl)
  have h := h.step (.nextUnfenced 0 1 rfl rfl rfl (fun value h => by cases h))
  have h := h.step (.nextLock 0 _ rfl rfl)
  have h := h.step (.nextUnfenced 1 2 rfl rfl rfl (fun value h => by cases h))
  have h := h.step (.nextValue 0 rfl (by decide))
  have h := h.step (.nextFence 0 1 rfl (by decide))
  have h := h.step (.nextSet 0 1 1 rfl rfl)
  have h := h.step (.nextUnlock 0 1 rfl)
  have h := h.step (.nextLock 1 _ rfl rfl)
  have h := h.step (.nextReturn 0 1 1 rfl rfl)
  have h := h.step (.nextValue 1 rfl (by decide))
  have h := h.step (.nextFence 1 2 rfl (by decide))
  have h := h.step (.nextSet 1 2 2 rfl rfl)
  have h := h.step (.nextUnlock 1 2 rfl)
  have h := h.step (.nextReturn 1 2 2 rfl rfl)
  have h := h.step (.minCall 1 2 rfl rfl rfl)
  have h := h.step (.minLock 1 _ _ rfl rfl)
  have h := h.step (.minSome 1 _ 1 rfl (by decide))
  have h := h.step (.minUnlock 1 _ 1 rfl)
  have h := h.step (.minReturn 1 _ 1 rfl)
  exact ⟨_, rfl, rfl, (minimum_is_low_water_mark h).1⟩

end Agiru.RowVersion
