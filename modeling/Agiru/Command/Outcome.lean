import Agiru.Command.Steady

/-! A session command is all or nothing, up to the commits that the server made for it. -/
namespace Agiru.Command
open Procedure
open Transaction (Boundaries Boundary renew rollback release reopen endBlock commitBlock releaseAbove commitKept
  mayCommit commit)
open Savepoints (Server)

variable {δ : Type} {start : δ} {s t : State δ}

/-! ### A commit that returns -/

theorem boundaries_of_send {sql : Sql δ} (h : exec (send sql) s = (.ok (), t)) : t.boundaries = s.boundaries := by
  obtain ⟨server, -, rfl⟩ := Option.map_eq_some_iff.mp (of_send h).2
  rfl

/-- What a read that returns leaves. -/
theorem read_returning (b : Boundaries) (d : δ) (within : Bool) :
    Returning (fun s => s.boundaries = b ∧ s.server.data = d ∧ s.server.inTransaction = within)
      (send (.data id) : Run δ Unit) := by
  intro s _ t hs h
  obtain ⟨server, hserver, rfl⟩ := Option.map_eq_some_iff.mp (of_send h).2
  obtain ⟨-, heq⟩ := Option.ite_none_left_eq_some.mp hserver
  cases heq
  exact hs

theorem lock_returning (b : Boundaries) (d : δ) (within : Bool) :
    Returning (fun s => s.boundaries = b ∧ s.server.data = d ∧ s.server.inTransaction = within)
      (lockCommandCommit : Run δ Unit) := by
  have hcheck : ∀ failure, Returning (fun s => s.boundaries = b ∧ s.server.data = d ∧
      s.server.inTransaction = within) (check failure : Run δ Unit) :=
    fun failure => .of_keeps (keeps_check (fun _ _ h => h) failure)
  have hread := read_returning b d within
  have hrest := Returning.bind hread fun _ => Returning.bind (hcheck .denied) fun _ =>
    Returning.bind (hcheck .denied) fun _ => Returning.bind hread fun _ => hcheck .denied
  unfold lockCommandCommit
  refine .bind (.of_keeps .get) fun s => ?_
  split
  · refine .bind (hcheck _) fun _ => .bind (.of_keeps (keeps_inTransaction _)) fun within => ?_
    split
    · exact .bind (.throw _) fun _ => hrest
    · exact hrest
  · exact .of_keeps (.pure _)

theorem of_inTransaction {b : Bool} (h : exec inTransaction s = (.ok b, t)) :
    t = s ∧ b = s.server.inTransaction := by
  unfold inTransaction at h
  simp only [exec_bind, exec_get, exec_ite] at h
  by_cases hclosed : s.link = .closed
  · rw [if_pos hclosed] at h
    cases h
  · rw [if_neg hclosed] at h
    cases h
    exact ⟨rfl, rfl⟩

theorem of_mayCommit {b : Boundaries} (h : exec (mayCommit b) s = (.ok (), t)) :
    t = s ∧ b.isolationFloor ≤ b.names.length ∧ s.server.failed = false ∧ b.inconsistent = [] := by
  unfold mayCommit at h
  rw [exec_ite] at h
  split at h
  · cases h
  · next hfloor =>
    obtain ⟨failed, u, hfailed, h⟩ := of_exec_bind h
    have hsame : u = s ∧ failed = s.server.failed := by
      replace hfailed : exec inFailedTransaction s = (.ok failed, u) := hfailed
      unfold inFailedTransaction at hfailed
      simp only [exec_bind, exec_get, exec_ite] at hfailed
      by_cases hclosed : s.link = .closed
      · rw [if_pos hclosed] at hfailed
        cases hfailed
      · rw [if_neg hclosed] at hfailed
        cases hfailed
        exact ⟨rfl, rfl⟩
    obtain ⟨rfl, rfl⟩ := hsame
    rw [exec_ite] at h
    split at h
    · cases h
    · next hsound =>
      cases hinconsistent : b.inconsistent with
      | nil =>
        rw [hinconsistent] at h
        cases h
        exact ⟨rfl, Nat.le_of_not_lt hfloor, by simpa using hsound, rfl⟩
      | cons table rest =>
        rw [hinconsistent] at h
        cases h

/-- The end of a block that is sound commits what it holds. -/
theorem of_endBlock (hs : Sound start s) (hfailed : s.server.failed = false)
    (h : exec endBlock s = (.ok (), t)) :
    t.server.committed = s.server.data ∧
      (s.server.inTransaction = true → t.link = .usable ∧ t.server.inTransaction = false) := by
  unfold endBlock at h
  obtain ⟨b, u, hin, h⟩ := of_exec_bind h
  obtain ⟨rfl, rfl⟩ := of_inTransaction hin
  rw [exec_ite] at h
  split at h
  · obtain ⟨_, v, hsend, h⟩ := of_exec_bind h
    cases h
    obtain ⟨hlink, hserve⟩ := of_send hsend
    obtain ⟨server, hserver, rfl⟩ := Option.map_eq_some_iff.mp hserve
    cases hserver
    refine ⟨?_, fun _ => ⟨hlink, rfl⟩⟩
    show (if u.server.failed then _ else _) = _
    rw [if_neg (by simp [hfailed])]
    rfl
  · next hout =>
    cases h
    exact ⟨((hs.outside (by simpa using hout)).2).symm, fun hin => absurd hin hout⟩

theorem of_reopen {renewed : List Boundary} (h : exec (reopen renewed) s = (.ok (), t)) :
    t.boundaries.names = s.boundaries.names ++ renewed := by
  induction renewed generalizing s with
  | nil =>
    cases h
    simp
  | cons boundary rest ih =>
    obtain ⟨_, u, hsend, h⟩ := of_exec_bind h
    obtain ⟨_, v, hset, h⟩ := of_exec_bind h
    cases hset
    have hnames := ih h
    rw [hnames]
    simp [boundaries_of_send hsend]

theorem of_releaseAbove {floor : Nat} (h : exec (releaseAbove floor) s = (.ok (), t)) :
    t.boundaries.names = s.boundaries.names.take floor := by
  unfold releaseAbove at h
  obtain ⟨_, _, hget, h⟩ := of_exec_bind h
  cases hget
  rw [boundaries_state] at h
  cases habove : s.boundaries.names[floor]? with
  | none =>
    rw [habove] at h
    cases h
    rw [List.take_of_length_le (List.getElem?_eq_none_iff.mp habove)]
  | some above =>
    rw [habove] at h
    obtain ⟨_, u, hsend, h⟩ := of_exec_bind h
    cases h
    show u.boundaries.names.take floor = _
    rw [boundaries_of_send hsend]

theorem of_commitKept {floor : Nat} {renewed : List Boundary} (hs : Sound start s)
    (hfailed : s.server.failed = false) (h : exec (commitKept floor renewed) s = (.ok (), t)) :
    (floor = 0 → t.boundaries.names = renewed ∧ t.server.committed = s.server.data ∧
        (renewed = [] → s.server.inTransaction = true → t.link = .usable ∧ t.server.inTransaction = false)) ∧
      (floor ≠ 0 → t.boundaries.names = s.boundaries.names.take floor ++ renewed ∧ t.commits = s.commits) := by
  constructor
  · rintro rfl
    unfold commitKept at h
    rw [if_pos rfl] at h
    obtain ⟨_, w, hblock, h⟩ := of_exec_bind h
    obtain ⟨_, x, hreopen, h⟩ := of_exec_bind h
    cases h
    unfold commitBlock at hblock
    obtain ⟨_, u, hend, hblock⟩ := of_exec_bind hblock
    obtain ⟨hcommitted, hout⟩ := of_endBlock hs hfailed hend
    have hu : Sound start u :=
      Returning.of_keeps ((steady_sound start).endBlock (sound_send fun f hf => by cases hf)) s () u hs hend
    obtain ⟨_, v, hset, hbegin⟩ := of_exec_bind hblock
    cases hset
    have hsteady := (steady_sound start).and (steady_log u.commits)
    have hw : Sound start w ∧ w.commits = u.commits := by
      refine Returning.of_keeps (.ite (hsteady.sends .begin (by simp)) (.pure ())) _ () w ?_ hbegin
      exact ⟨⟨hu.outside, hu.logged, hu.linked⟩, rfl⟩
    have hx := Returning.of_keeps (hsteady.reopen renewed) w () x hw hreopen
    have hnames : w.boundaries.names = [] := by
      rw [exec_ite] at hbegin
      split at hbegin
      · rw [boundaries_of_send hbegin]
        rfl
      · cases hbegin
        rfl
    refine ⟨?_, ?_, ?_⟩
    · show x.boundaries.names = renewed
      rw [of_reopen hreopen, hnames, List.nil_append]
    · show x.server.committed = s.server.data
      rw [hx.1.logged, hx.2, ← hu.logged, hcommitted]
    · rintro rfl hin
      cases hreopen
      cases hbegin
      exact hout hin
  · intro hfloor
    have hlog := Returning.of_keeps ((steady_log s.commits).commitFloor hfloor renewed) s () t rfl h
    unfold commitKept at h
    rw [if_neg hfloor] at h
    obtain ⟨_, w, hrelease, h⟩ := of_exec_bind h
    obtain ⟨_, x, hreopen, h⟩ := of_exec_bind h
    cases h
    refine ⟨?_, hlog⟩
    show x.boundaries.names = _
    rw [of_reopen hreopen, of_releaseAbove hrelease]

theorem renew_length (inconsistent : List Bytes) (issued count : Nat) :
    (renew inconsistent issued count).length = count := by
  induction count generalizing issued with
  | zero => rfl
  | succ count ih => simp [renew, ih]

/-- A commit that returns leaves as many boundaries; without a floor it has committed what the session held, and
under one it has committed nothing. -/
theorem of_commit (hs : Sound start s) (h : exec commit s = (.ok (), t)) :
    s.boundaries.isolationFloor ≤ s.depth ∧ t.depth = s.depth ∧
      (s.boundaries.isolationFloor = 0 → t.server.committed = s.server.data) ∧
        (s.boundaries.isolationFloor ≠ 0 → t.commits = s.commits) ∧
          (s.boundaries.names = [] → s.server.inTransaction = true →
            t.link = .usable ∧ t.server.inTransaction = false) := by
  unfold commit at h
  obtain ⟨_, u, hlock, h⟩ := of_exec_bind h
  obtain ⟨hboundaries, hdata, hin⟩ :=
    lock_returning s.boundaries s.server.data s.server.inTransaction s () u ⟨rfl, rfl, rfl⟩ hlock
  have hlog : u.commits = s.commits := Returning.of_keeps (steady_log s.commits).lockCommandCommit s () u rfl hlock
  have hu : Sound start u := Returning.of_keeps (steady_sound start).lockCommandCommit s () u hs hlock
  obtain ⟨_, _, hget, h⟩ := of_exec_bind h
  cases hget
  obtain ⟨_, w, hmay, h⟩ := of_exec_bind h
  obtain ⟨hsame, hfloor, hfailed, -⟩ := of_mayCommit hmay
  rw [hsame] at h
  obtain ⟨_, v, hset, h⟩ := of_exec_bind h
  have hv : Sound start v := Returning.of_keeps ((steady_sound start).boundaries _) _ () v hu hset
  obtain ⟨hserver, hcommits, hnames⟩ : v.server = u.server ∧ v.commits = u.commits ∧
      v.boundaries.names = u.boundaries.names := by
    cases hset
    exact ⟨rfl, rfl, rfl⟩
  replace h := of_exec_tryCatch (fun e u b v => not_returned_throw e u b v) h
  rw [boundaries_state, hboundaries] at h hfloor
  obtain ⟨hfloorless, hunder⟩ := of_commitKept hv (by rw [hserver]; exact hfailed) h
  rw [hserver, hdata, hin] at hfloorless
  rw [hcommits, hlog, hnames, hboundaries] at hunder
  have hlength : ∀ floor ≤ s.boundaries.names.length, (s.boundaries.names.take floor).length +
      (s.boundaries.names.length - floor) = s.boundaries.names.length := by
    intro floor hle
    rw [List.length_take, Nat.min_eq_left hle]
    omega
  refine ⟨hfloor, ?_, ?_, ?_, ?_⟩
  · show t.boundaries.names.length = s.boundaries.names.length
    by_cases hzero : s.boundaries.isolationFloor = 0
    · rw [(hfloorless hzero).1, renew_length, hzero, Nat.sub_zero]
    · rw [(hunder hzero).1, List.length_append, renew_length]
      simpa using hlength _ hfloor
  · exact fun hzero => (hfloorless hzero).2.1
  · exact fun hpositive => (hunder hpositive).2
  · intro hnone
    have hzero : s.boundaries.isolationFloor = 0 := by
      rw [hnone] at hfloor
      exact Nat.le_zero.mp hfloor
    refine (hfloorless hzero).2.2 ?_
    rw [hnone]
    simp [renew]

/-! ### The ends of boundaries -/

theorem boundaries_send (sql : Sql δ) (b : Boundaries) :
    Keeps (fun s : State δ => s.boundaries = b) (send sql) := by
  refine send_keeps (fun s h => h) ?_ (fun s h => h) fun s h => h
  intro s t h _ hserve
  obtain ⟨server, -, rfl⟩ := Option.map_eq_some_iff.mp hserve
  exact h

/-- However a rollback ends, the boundary and those above it are gone, or all are there. -/
theorem rollback_names (depth : Nat) (s : State δ) :
    (exec (rollback depth) s).2.boundaries.names = s.boundaries.names ∨
      (exec (rollback depth) s).2.boundaries.names = s.boundaries.names.take (depth - 1) := by
  unfold rollback
  rw [exec_ite]
  split
  · exact .inl rfl
  · rw [exec_bind, exec_get]
    dsimp only
    cases s.boundaries.names[depth - 1]? with
    | none => exact .inl rfl
    | some held =>
      dsimp only
      have hfirst := boundaries_send (.statement (.rollbackTo held.name)) s.boundaries s rfl
      rw [exec_bind]
      rcases hrun : exec (send (.statement (.rollbackTo held.name))) s with ⟨e | _, u⟩ <;> rw [hrun] at hfirst
      · exact .inl (congrArg Boundaries.names hfirst)
      · have hsecond := boundaries_send (.statement (.release held.name)) s.boundaries u hfirst
        dsimp only
        rw [exec_bind]
        rcases hnext : exec (send (.statement (.release held.name))) u with ⟨e | _, v⟩ <;> rw [hnext] at hsecond
        · exact .inl (congrArg Boundaries.names hsecond)
        · refine .inr ?_
          show v.boundaries.names.take (depth - 1) = _
          rw [show v.boundaries = s.boundaries from hsecond]

theorem release_names (depth : Nat) (s : State δ) :
    (exec (release depth) s).2.boundaries.names = s.boundaries.names ∨
      (exec (release depth) s).2.boundaries.names = s.boundaries.names.take (depth - 1) := by
  unfold release
  rw [exec_ite]
  split
  · exact .inl rfl
  · rw [exec_bind, exec_get]
    dsimp only
    cases s.boundaries.names[depth - 1]? with
    | none => exact .inl rfl
    | some held =>
      dsimp only
      have hfirst := boundaries_send (.statement (.release held.name)) s.boundaries s rfl
      rw [exec_bind, exec_tryCatch]
      rcases hrun : exec (send (.statement (.release held.name))) s with ⟨e | _, u⟩ <;> rw [hrun] at hfirst
      · have hback := rollback_names depth u
        rw [show u.boundaries = s.boundaries from hfirst] at hback
        dsimp only
        rw [exec_bind]
        rcases hnext : exec (rollback depth) u with ⟨e | _, v⟩ <;> rw [hnext] at hback <;> exact hback
      · refine .inr ?_
        show u.boundaries.names.take (depth - 1) = _
        rw [show u.boundaries = s.boundaries from hfirst]

/-- A release that returns keeps what the block holds, which no statement has failed. -/
theorem of_release {depth : Nat} (hpositive : depth ≠ 0) (hdepth : depth ≤ s.depth)
    (h : exec (release depth) s = (.ok (), t)) :
    t.boundaries.names = s.boundaries.names.take (depth - 1) ∧ t.server.data = s.server.data ∧
      t.server.inTransaction = true ∧ s.server.failed = false := by
  unfold release at h
  rw [if_neg hpositive] at h
  obtain ⟨_, _, hget, h⟩ := of_exec_bind h
  cases hget
  have hlt : depth - 1 < s.boundaries.names.length := by
    have : s.depth = s.boundaries.names.length := rfl
    omega
  rw [boundaries_state, List.getElem?_eq_getElem hlt] at h
  obtain ⟨_, u, hbody, h⟩ := of_exec_bind h
  cases h
  replace hbody := of_exec_tryCatch (fun e u b v => not_returned_throw _ u b v) hbody
  have hsame := boundaries_of_send hbody
  obtain ⟨server, hserver, rfl⟩ := Option.map_eq_some_iff.mp (of_send hbody).2
  obtain ⟨hin, heq⟩ := Option.ite_none_right_eq_some.mp hserver
  obtain ⟨⟨before, held⟩, -, rfl⟩ := Option.map_eq_some_iff.mp heq
  obtain ⟨hwithin, hsound⟩ := Bool.and_eq_true_iff.mp hin
  have hfailed : s.server.failed = false := by simpa [State.used] using hsound
  exact ⟨rfl, rfl, hwithin, hfailed⟩

/-! ### The end of a command -/

/-- A session that no command has: nothing is left of its boundaries, and its connection is outside of any block,
or closed. -/
structure Left (s : State δ) : Prop where
  detached : s.attached = false
  boundaries : s.boundaries.names = []
  inconsistent : s.boundaries.inconsistent = []
  floor : s.boundaries.isolationFloor = 0
  writing : s.boundaries.writing = false
  block : s.server.inTransaction = false
  link : s.link ≠ .broken

theorem exec_detach (s : State δ) :
    ∃ t, exec detach s = (.ok (), t) ∧ t.server = s.server ∧ t.commits = s.commits ∧
    (s.server.inTransaction = false → s.link ≠ .broken → Left t) :=
  ⟨_, rfl, rfl, rfl, fun hblock hlink => ⟨rfl, rfl, rfl, rfl, rfl, hblock, hlink⟩⟩

/-- A `Keep` that returns found one boundary and no failure, committed what the session held, and left the
session. -/
theorem of_keep {current : Bool} (hs : Sound start s) (h : exec (keep current) s = (.ok (), t)) :
    s.depth = 1 ∧ s.server.failed = false ∧ t.server.committed = s.server.data ∧ Left t := by
  unfold keep at h
  obtain ⟨_, _, hget, h⟩ := of_exec_bind h
  cases hget
  rw [exec_ite] at h
  split at h
  · cases h
  · rw [exec_ite] at h
    split at h
    · cases h
    · next hdepth =>
      have hone : s.depth = 1 := (by simpa using hdepth : current = true ∧ s.depth = 1).2
      obtain ⟨_, u, hrelease, h⟩ := of_exec_bind h
      obtain ⟨_, v, hcommit, h⟩ := of_exec_bind h
      obtain ⟨hnames, hdata, hwithin, hfailed⟩ := of_release (by decide) (Nat.le_of_eq hone.symm) hrelease
      have hu : Sound start u := Returning.of_keeps ((steady_sound start).release 1) s () u hs hrelease
      obtain ⟨hfloor, -, hcommitted, -, hidle⟩ := of_commit hu hcommit
      have hnone : u.boundaries.names = [] := by rw [hnames]; rfl
      have hzero : u.boundaries.isolationFloor = 0 := by
        have hdepth : u.depth = 0 := List.length_eq_zero_iff.mpr hnone
        omega
      obtain ⟨hlink, hblock⟩ := hidle hnone hwithin
      obtain ⟨w, hdetach, hserver, -, hleft⟩ := exec_detach v
      rw [hdetach] at h
      cases h
      refine ⟨hone, hfailed, ?_, hleft hblock (by simp [hlink])⟩
      rw [hserver, hcommitted hzero, hdata]

/-- What is pending is rolled back, or gone with the connection. -/
theorem exec_abandon (hs : Sound start s) :
    ∃ u, exec (tryCatch abandon fun _ => close) s = (.ok (), u) ∧ u.server.committed = s.server.committed ∧
      u.commits = s.commits ∧ u.server.inTransaction = false := by
  by_cases hpending : s.link = .usable ∧ s.server.inTransaction = true
  · have hrun : exec abandon s = exec (send .rollback) s := by
      unfold abandon
      rw [exec_bind, exec_get]
      simp [hpending.1, hpending.2]
    rw [exec_tryCatch, hrun]
    rcases send_usable .rollback hpending.1 with ⟨u, hserve, hsend⟩ | hsend | ⟨u, -, hsend⟩
    · obtain ⟨server, hserver, rfl⟩ := Option.map_eq_some_iff.mp hserve
      cases hserver
      rw [hsend]
      exact ⟨_, rfl, rfl, rfl, rfl⟩
    · rw [hsend]
      exact ⟨_, rfl, rfl, rfl, rfl⟩
    · have hlog : Keeps (fun t : State δ => t.server.committed = s.server.committed ∧ t.commits = s.commits)
          (send .rollback) := by
        refine send_keeps (fun _ h => h) ?_ (fun _ h => h) fun _ h => h
        intro v w h _ hserve
        obtain ⟨server, hserver, rfl⟩ := Option.map_eq_some_iff.mp hserve
        cases hserver
        exact h
      obtain ⟨hcommitted, hcommits⟩ := hlog s ⟨rfl, rfl⟩
      rw [hsend] at hcommitted hcommits
      rw [hsend]
      exact ⟨_, rfl, hcommitted, hcommits, rfl⟩
  · have hrun : exec abandon s = (.ok (), s) := by
      unfold abandon
      rw [exec_bind, exec_get]
      have : (s.link = .usable && s.server.inTransaction) = false := by simpa using hpending
      simp [this]
    refine ⟨s, by rw [exec_tryCatch, hrun], rfl, rfl, ?_⟩
    by_cases hlink : s.link = .usable
    · simpa [hlink] using hpending
    · exact hs.linked hlink

/-- The destructor of a command leaves the session, and keeps nothing. -/
theorem exec_destroy (hs : Sound start s) (hattached : s.attached = true) :
    ∃ t, exec destroy s = (.ok (), t) ∧ t.server.committed = s.server.committed ∧ t.commits = s.commits ∧
      Left t := by
  obtain ⟨u, habandon, hcommitted, hcommits, hblock⟩ := exec_abandon hs
  obtain ⟨v, hclose, hserver, hlog, hout, hlink⟩ : ∃ v, exec closeLost u = (.ok (), v) ∧
      v.server.committed = u.server.committed ∧ v.commits = u.commits ∧ v.server.inTransaction = false ∧
        v.link ≠ .broken := by
    unfold closeLost
    rw [exec_bind, exec_get]
    dsimp only
    rw [exec_ite]
    split
    · exact ⟨_, rfl, rfl, rfl, rfl, by simp⟩
    · next husable => exact ⟨u, rfl, rfl, rfl, hblock, by simpa using fun h => husable (by simp [h])⟩
  obtain ⟨t, hdetach, hsame, hkept, hleft⟩ := exec_detach v
  refine ⟨t, ?_, ?_, ?_, hleft hout hlink⟩
  · unfold destroy
    rw [exec_bind, exec_get]
    dsimp only
    rw [hattached, exec_ite, if_pos rfl, exec_bind, habandon]
    dsimp only
    rw [exec_bind, hclose]
    exact hdetach
  · rw [hsame, hserver, hcommitted]
  · rw [hkept, hlog, hcommits]

end Agiru.Command
