import Agiru.Transaction.Linked

/-! A session does what its nest does.

`Carried` is what one operation keeps: the session stays linked, its nest takes the
nest's own step, and under a floor no commit is sent. `carried` shows it for every
operation, `carried_run` for every run. -/
namespace Agiru.Transaction
open Savepoints (Statement Server)
open Procedure
open Session

variable {δ : Type}
variable {s : Session δ}

/-- The frame a boundary and its savepoint hold between them. -/
def frameOf (kept : Bytes × δ) (b : Boundary) : Frame δ :=
  ⟨kept.2, b.inconsistentBefore, b.writingBefore⟩

/-- A session without its names, its server and its statements. -/
def Session.nest (s : Session δ) : Nest δ where
  now := ⟨s.server.data, s.boundaries.inconsistent, s.boundaries.writing⟩
  floor := s.boundaries.isolationFloor
  frames := List.zipWith frameOf s.server.savepoints s.boundaries.names

theorem Linked.depth_nest (h : Linked s) : s.nest.depth = s.depth := by
  simp [Nest.depth, nest, depth, h.length]

@[simp] theorem nest_now (s : Session δ) :
    s.nest.now = ⟨s.server.data, s.boundaries.inconsistent, s.boundaries.writing⟩ := rfl

@[simp] theorem nest_floor (s : Session δ) : s.nest.floor = s.boundaries.isolationFloor := rfl

/-- What one operation keeps. -/
structure Carried (op : Op δ) (s t : Session δ) : Prop where
  linked : Linked t
  nest : t.nest = s.nest.step op
  sent : ∃ sts, t.sent = s.sent ++ sts ∧ (s.boundaries.isolationFloor ≠ 0 → .commit ∉ sts)
  stays : ∀ i, i < s.boundaries.isolationFloor → op.Above (i + 1) → i < s.depth →
    t.server.savepoints[i]? = s.server.savepoints[i]?

/-- An operation that changes neither the nest nor the session. -/
theorem Carried.idle {op : Op δ} (h : Linked s) (hn : s.nest.step op = s.nest) : Carried op s s :=
  ⟨h, hn.symm, ⟨[], by simp, by simp⟩, fun _ _ _ _ => rfl⟩

theorem Linked.take {t : Session δ} (h : Linked s) (i : Nat) (hnames : t.boundaries.names = s.boundaries.names.take i)
    (hstack : t.server.savepoints = s.server.savepoints.take i)
    (hissued : t.boundaries.issued = s.boundaries.issued)
    (hblock : t.server.inTransaction = s.server.inTransaction)
    (hfailed : t.server.failed = s.server.failed)
    (hsettled : s.server.inTransaction = false → t.server.committed = t.server.data) :
    Linked t where
  names := by rw [hnames, hstack, List.map_take, List.map_take, h.names]
  distinct := by
    rw [hnames, List.map_take]
    exact h.distinct.sublist (List.take_sublist i _)
  issued name hname := by
    rw [hnames, List.map_take] at hname
    rw [hissued]
    exact h.issued name (List.mem_of_mem_take hname)
  inBlock hne := by
    rw [hblock]
    refine h.inBlock fun hnone => hne ?_
    rw [hnames, hnone, List.take_nil]
  sound := hfailed.trans h.sound
  settled hout := hsettled (hblock ▸ hout)

theorem carried_open (h : Linked s) : Carried .opens s (step .opens s) := by
  by_cases hf : s.boundaries.isolationFloor ≤ s.depth
  · have hstep : step .opens s = s.opened := by
      simp [step, perform, exec_open h hf]
    have hfresh : s.next.name ∉ s.boundaries.names.map Boundary.name :=
      h.fresh (Nat.lt_succ_self _)
    rw [hstep]
    refine ⟨⟨?_, ?_, ?_, fun _ => rfl, h.sound, fun hout => ?_⟩, ?_,
      ⟨(if s.server.inTransaction then [] else [.begin]) ++ [.savepoint s.next.name],
      by simp [opened], fun _ => ?_⟩, fun i _ _ hi => ?_⟩
    · simp [opened, h.names]
    · simp only [opened, List.map_append, List.map_cons, List.map_nil]
      exact List.nodup_append.mpr ⟨h.distinct, List.nodup_singleton _,
        fun name hname other hother he => hfresh (by simp_all)⟩
    · intro name hname
      simp only [opened, List.map_append, List.map_cons, List.map_nil, List.mem_append, List.mem_singleton] at hname
      rcases hname with hold | rfl
      · obtain ⟨k, hk, he⟩ := h.issued name hold
        exact ⟨k, Nat.le_succ_of_le hk, he⟩
      · exact ⟨_, Nat.le_refl _, rfl⟩
    · simp [opened] at hout
    · simp [Nest.step, h.depth_nest, hf]
      simp [nest, opened, List.zipWith_append h.length, frameOf, next]
    · cases s.server.inTransaction <;> simp
    · exact List.getElem?_append_left (h.length ▸ hi)
  · have hfail : step .opens s = s := by
      simp [step, perform, exec_open_lost hf]
    rw [hfail]
    exact Carried.idle h (by simp [Nest.step, h.depth_nest, hf])

theorem carried_write (h : Linked s) (f : δ → δ) : Carried (.write f) s (step (.write f) s) := by
  have hstep : step (.write f) s = s.written f := by
    simp [step, exec_write h]
  rw [hstep]
  refine ⟨⟨h.names, h.distinct, h.issued, fun _ => rfl, h.sound, fun hout => ?_⟩, rfl,
    ⟨if s.server.inTransaction then [] else [.begin], rfl, fun _ => ?_⟩, fun _ _ _ _ => rfl⟩
  · simp [written] at hout
  · cases s.server.inTransaction <;> simp

theorem carried_mark (h : Linked s) (table : Bytes) (consistent : Bool) :
    Carried (.mark table consistent) s (step (.mark table consistent) s) :=
  ⟨⟨h.names, h.distinct, h.issued, h.inBlock, h.sound, h.settled⟩, rfl,
    ⟨[], (List.append_nil _).symm, fun _ => List.not_mem_nil⟩, fun _ _ _ _ => rfl⟩

theorem carried_floor (h : Linked s) (depth : Nat) : Carried (.floor depth) s (step (.floor depth) s) :=
  ⟨⟨h.names, h.distinct, h.issued, h.inBlock, h.sound, h.settled⟩, rfl,
    ⟨[], (List.append_nil _).symm, fun _ => List.not_mem_nil⟩, fun _ _ _ _ => rfl⟩

/-- A depth at which no boundary stands changes nothing. -/
theorem exec_release_beyond {depth : Nat} (hd : depth = 0 ∨ s.depth < depth) :
    exec (release depth) s = (.ok (), s) := by
  rcases hd with rfl | hd
  · simp [release]
  · have hnone : s.boundaries.names[depth - 1]? = none :=
      List.getElem?_eq_none_iff.mpr (Nat.le_sub_one_of_lt hd)
    simp [release, exec_bind, hnone]

theorem exec_rollback_beyond {depth : Nat} (hd : depth = 0 ∨ s.depth < depth) :
    exec (rollback depth) s = (.ok (), s) := by
  rcases hd with rfl | hd
  · simp [rollback]
  · have hnone : s.boundaries.names[depth - 1]? = none :=
      List.getElem?_eq_none_iff.mpr (Nat.le_sub_one_of_lt hd)
    simp [rollback, exec_bind, hnone]

/-- A depth that a scope has is one of the savepoints' places. -/
theorem depth_within {depth : Nat} (hd : ¬ (depth = 0 ∨ s.depth < depth)) :
    ∃ i, depth = i + 1 ∧ i < s.boundaries.names.length := by
  have : s.depth = s.boundaries.names.length := rfl
  exact ⟨depth - 1, by omega, by omega⟩

theorem carried_release (h : Linked s) (depth : Nat) : Carried (.release depth) s (step (.release depth) s) := by
  by_cases hd : depth = 0 ∨ s.depth < depth
  · have hstep : step (.release depth) s = s := by
      simp [step, perform, exec_release_beyond hd]
    rw [hstep]
    exact Carried.idle h (by simp [Nest.step, h.depth_nest, hd])
  · obtain ⟨i, rfl, hi⟩ := depth_within hd
    have hs : i < s.server.savepoints.length := h.length ▸ hi
    have hstep : step (.release (i + 1)) s = s.released i s.boundaries.names[i] := by
      simp [step, perform, exec_release h hi hs]
    rw [hstep]
    refine ⟨h.take i rfl rfl rfl rfl rfl h.settled, ?_,
      ⟨[.release s.boundaries.names[i].name], rfl, fun _ => by simp⟩, fun j _ hj _ => ?_⟩
    · simp only [Nest.step, h.depth_nest, hd, if_false]
      simp [nest, released, List.take_zipWith]
    · have hdeeper : j < i := Nat.lt_of_succ_lt_succ hj
      simp [released, hdeeper]

theorem carried_rollback (h : Linked s) (depth : Nat) : Carried (.rollback depth) s (step (.rollback depth) s) := by
  by_cases hd : depth = 0 ∨ s.depth < depth
  · have hstep : step (.rollback depth) s = s := by
      simp [step, perform, exec_rollback_beyond hd]
    rw [hstep]
    refine Carried.idle h ?_
    rcases hd with rfl | hd
    · simp [Nest.step]
    · have hdepth : s.nest.frames.length = s.depth := h.depth_nest
      have hnone : s.nest.frames[depth - 1]? = none :=
        List.getElem?_eq_none_iff.mpr (hdepth ▸ Nat.le_sub_one_of_lt hd)
      simp [Nest.step, hnone]
  · obtain ⟨i, rfl, hi⟩ := depth_within hd
    have hs : i < s.server.savepoints.length := h.length ▸ hi
    have hblock : s.server.inTransaction = true :=
      h.inBlock (List.ne_nil_of_length_pos (by omega))
    have hstep : step (.rollback (i + 1)) s =
        s.rolledBack i s.boundaries.names[i] s.server.savepoints[i].2 := by
      simp [step, perform, exec_rollback h hi hs]
    rw [hstep]
    refine ⟨h.take i rfl rfl rfl rfl rfl fun hout => ?_, ?_,
      ⟨[.rollbackTo s.boundaries.names[i].name, .release s.boundaries.names[i].name], rfl,
      fun _ => by simp⟩, fun j _ hj _ => ?_⟩
    · rw [hblock] at hout
      cases hout
    · have hframe : s.nest.frames[i]? =
          some (frameOf s.server.savepoints[i] s.boundaries.names[i]) := by
        simp [nest, List.getElem?_zipWith, List.getElem?_eq_getElem hi, List.getElem?_eq_getElem hs]
      simp [Nest.step, hframe]
      simp [nest, rolledBack, List.take_zipWith, frameOf]
    · have hdeeper : j < i := Nat.lt_of_succ_lt_succ hj
      simp [rolledBack, hdeeper]

/-- The boundaries a commit opens again all hold the present frame. -/
theorem renew_frames (issued count : Nat) (data : δ) :
    List.zipWith frameOf ((renew [] issued count).map fun b => (b.name, data))
      (renew [] issued count) = List.replicate count ⟨data, [], false⟩ := by
  induction count generalizing issued with
  | zero => rfl
  | succ count ih => simp [renew, ih, frameOf, List.replicate_succ]

theorem Session.renewed_names (s : Session δ) :
    s.renewed.map Boundary.name = (List.range' (s.boundaries.issued + 1)
      (s.depth - s.boundaries.isolationFloor)).map nextName :=
  renew_names _ _ _

theorem linked_ended (s : Session δ) : Linked (s.counted.ended s.renewed) where
  names := by simp [ended, counted, Function.comp_def]
  distinct := by
    show (s.renewed.map Boundary.name).Nodup
    rw [s.renewed_names]
    exact List.Nodup.map (fun _ _ => nextName_injective) (List.nodup_range' 1)
  issued name hname := by
    replace hname : name ∈ s.renewed.map Boundary.name := hname
    rw [s.renewed_names] at hname
    obtain ⟨k, hk, rfl⟩ := List.mem_map.mp hname
    refine ⟨k, ?_, rfl⟩
    have := List.mem_range'_1.mp hk
    show k ≤ s.boundaries.issued + _
    omega
  inBlock hne := by simpa [ended] using hne
  sound := rfl
  settled _ := rfl

theorem linked_kept (h : Linked s)
    (hzero : s.boundaries.isolationFloor ≠ 0) (hf : s.boundaries.isolationFloor ≤ s.depth) :
    Linked (s.counted.kept s.renewed) where
  names := by
    simp [kept, counted, Function.comp_def, ← h.names]
  distinct := by
    show ((s.boundaries.names.take _ ++ s.renewed).map Boundary.name).Nodup
    rw [List.map_append, s.renewed_names, List.map_take]
    refine List.nodup_append.mpr ⟨h.distinct.sublist (List.take_sublist _ _), ?_, ?_⟩
    · exact List.Nodup.map (fun _ _ => nextName_injective) (List.nodup_range' 1)
    · intro name hold other hnew he
      obtain ⟨k, hk, rfl⟩ := List.mem_map.mp hnew
      have hfresh : s.boundaries.issued < k := by
        have := List.mem_range'_1.mp hk
        omega
      exact h.fresh hfresh (he ▸ List.mem_of_mem_take hold)
  issued name hname := by
    replace hname : name ∈ (s.boundaries.names.take _ ++ s.renewed).map Boundary.name := hname
    rw [List.map_append, s.renewed_names, List.map_take, List.mem_append] at hname
    rcases hname with hold | hnew
    · obtain ⟨k, hk, he⟩ := h.issued name (List.mem_of_mem_take hold)
      exact ⟨k, Nat.le_trans hk (Nat.le_add_right _ _), he⟩
    · obtain ⟨k, hk, rfl⟩ := List.mem_map.mp hnew
      refine ⟨k, ?_, rfl⟩
      have := List.mem_range'_1.mp hk
      show k ≤ s.boundaries.issued + _
      omega
  inBlock _ := by
    have hlen : s.boundaries.isolationFloor ≤ s.boundaries.names.length := hf
    exact h.inBlock (List.ne_nil_of_length_pos (by omega))
  sound := h.sound
  settled := h.settled

theorem nest_commits (h : Linked s) : s.nest.commits = true ↔
      s.boundaries.inconsistent = [] ∧ s.boundaries.isolationFloor ≤ s.depth := by
  simp [Nest.commits, h.depth_nest]

theorem carried_commit (h : Linked s) : Carried .commit s (step .commit s) := by
  by_cases hc : s.nest.commits = true
  · obtain ⟨hi, hf⟩ := (nest_commits h).mp hc
    have hstep : step .commit s = s.committed := by
      simp [step, perform, exec_commit h hf hi]
    have hframes : List.zipWith frameOf (s.renewed.map fun b => (b.name, s.server.data))
        s.renewed = List.replicate (s.nest.depth - s.nest.floor) s.nest.clean := by
      simp only [renewed, hi, h.depth_nest, nest_floor]
      exact renew_frames _ _ _
    rw [hstep, committed]
    by_cases hzero : s.boundaries.isolationFloor = 0
    · rw [if_pos hzero]
      refine ⟨linked_ended s, ?_, ⟨(if s.server.inTransaction then [.commit] else []) ++
        (if s.renewed.isEmpty then [] else [.begin]) ++ s.renewed.map fun b => .savepoint b.name,
        by simp only [ended, List.append_assoc]; rfl, fun hne => absurd hzero hne⟩, fun i hi _ _ => ?_⟩
      · rw [Nest.step, if_pos hc, ← hframes]
        simp [nest, ended, counted, Nest.clean, hzero, hi]
      · rw [hzero] at hi
        cases hi
    · rw [if_neg hzero]
      refine ⟨linked_kept h hzero hf, ?_, ⟨_, rfl, fun _ => ?_⟩, fun i hi _ hd => ?_⟩
      · have hlen : (s.server.savepoints.take s.boundaries.isolationFloor).length =
            (s.boundaries.names.take s.boundaries.isolationFloor).length := by
          simp [h.length]
        rw [Nest.step, if_pos hc, ← hframes]
        simp [nest, kept, counted, Nest.clean, hi, List.take_zipWith, List.zipWith_append hlen]
      · simp [counted]
      · have hlt : i < (s.server.savepoints.take s.boundaries.isolationFloor).length := by
          rw [List.length_take, h.length]
          exact lt_min hi hd
        show (s.server.savepoints.take s.boundaries.isolationFloor ++ _)[i]? = _
        rw [List.getElem?_append_left hlt, List.getElem?_take, if_pos hi]
  · have hstep : step .commit s = s := by
      obtain ⟨failure, he⟩ := exec_commit_refused h fun hf hi => hc ((nest_commits h).mpr ⟨hi, hf⟩)
      simp [step, perform, he]
    rw [hstep]
    exact Carried.idle h (by simp [Nest.step, hc])

theorem carried (h : Linked s) (op : Op δ) : Carried op s (step op s) := by
  cases op with
  | opens => exact carried_open h
  | write f => exact carried_write h f
  | mark table consistent => exact carried_mark h table consistent
  | commit => exact carried_commit h
  | release depth => exact carried_release h depth
  | rollback depth => exact carried_rollback h depth
  | floor depth => exact carried_floor h depth

/-! ### Runs -/

theorem linked_initial (data : δ) : Linked (initial data) where
  names := rfl
  distinct := List.nodup_nil
  issued _ hname := absurd hname List.not_mem_nil
  inBlock hne := absurd rfl hne
  sound := rfl
  settled _ := rfl

theorem linked_run (h : Linked s) (ops : List (Op δ)) : Linked (run s ops) := by
  induction ops generalizing s with
  | nil => exact h
  | cons op rest ih => exact ih (carried h op).linked

/-- A run of a session is the run of its nest. -/
theorem nest_run (h : Linked s) (ops : List (Op δ)) : (run s ops).nest = s.nest.run ops := by
  induction ops generalizing s with
  | nil => rfl
  | cons op rest ih =>
    show (run (step op s) rest).nest = (s.nest.step op).run rest
    rw [ih (carried h op).linked, (carried h op).nest]

theorem floor_step (h : Linked s) {op : Op δ} (ho : op.movesFloor = false) :
    (step op s).boundaries.isolationFloor = s.boundaries.isolationFloor := by
  rw [← nest_floor, (carried h op).nest, Nest.floor_step ho, nest_floor]

/-- Under a floor a run sends no commit. -/
theorem sent_run (h : Linked s) (hfloor : s.boundaries.isolationFloor ≠ 0)
    {ops : List (Op δ)} (hops : ∀ op ∈ ops, op.movesFloor = false) :
    ∃ sts, (run s ops).sent = s.sent ++ sts ∧ .commit ∉ sts := by
  induction ops generalizing s with
  | nil => exact ⟨[], (List.append_nil _).symm, List.not_mem_nil⟩
  | cons op rest ih =>
    obtain ⟨first, hfirst, hno⟩ := (carried h op).sent
    have hsame := floor_step h (hops op List.mem_cons_self)
    obtain ⟨others, hothers, hnone⟩ :=
      ih (carried h op).linked (hsame ▸ hfloor) fun o ho => hops o (List.mem_cons_of_mem _ ho)
    refine ⟨first ++ others, ?_, ?_⟩
    · show (run (step op s) rest).sent = _
      rw [hothers, hfirst, List.append_assoc]
    · exact fun hmem => (List.mem_append.mp hmem).elim (hno hfloor) hnone

/-- A savepoint below the floor stays through a run above it. -/
theorem stays_run (h : Linked s) {i : Nat}
    (hi : i < s.boundaries.isolationFloor) (hd : i < s.depth) {ops : List (Op δ)}
    (hfixed : ∀ op ∈ ops, op.movesFloor = false) (hops : ∀ op ∈ ops, op.Above (i + 1)) :
    (run s ops).server.savepoints[i]? = s.server.savepoints[i]? := by
  induction ops generalizing s with
  | nil => rfl
  | cons op rest ih =>
    have hsame := floor_step h (hfixed op List.mem_cons_self)
    have hone := (carried h op).stays i hi (hops op List.mem_cons_self) hd
    have hlater : i < (step op s).depth := by
      have hsome : i < s.server.savepoints.length := h.length ▸ hd
      rw [List.getElem?_eq_getElem hsome] at hone
      have := (List.getElem?_eq_some_iff.mp hone).1
      rwa [(carried h op).linked.length] at this
    exact (ih (carried h op).linked (hsame ▸ hi) hlater (fun o ho => hfixed o (List.mem_cons_of_mem _ ho))
      fun o ho => hops o (List.mem_cons_of_mem _ ho)).trans hone

end Agiru.Transaction
