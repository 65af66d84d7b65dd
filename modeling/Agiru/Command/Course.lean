import Agiru.Command.Outcome

/-! What every operation of a command's body leaves true, whichever way it ends, and what a command comes to.

`Intact` is the invariant of a body: while the command is active the session's data since the last commit are
pending, and the open scopes stand on boundaries of their own; once it has ended, the session is left. -/
namespace Agiru.Command
open Procedure
open Transaction (Boundaries Boundary openBoundary write modifyBoundaries)
open Savepoints (Statement Server)

variable {δ : Type} {start : δ} {s t : State δ}
variable {scopes : List Nat} {c : Course δ}
variable {result : Except Failure Unit}
variable {depth : Nat} {op : Op δ}

/-! ### The log of commits only grows -/

theorem grows_send (log : List δ) (sql : Sql δ) : Keeps (fun s : State δ => log <:+ s.commits) (send sql) := by
  refine send_keeps (fun s h => h) ?_ (fun s h => h) fun s h => h
  intro s t h _ hserve
  obtain ⟨server, -, rfl⟩ := Option.map_eq_some_iff.mp hserve
  exact h.trans (List.suffix_append _ _)

theorem steady_grows (log : List δ) : Steady fun s : State δ => log <:+ s.commits where
  boundaries _ := .modify fun _ h => h
  sends _ _ := grows_send log _
  reads := grows_send log _
  checks := keeps_check fun _ _ h => h

/-! ### Boundaries -/

theorem names_send (names : List Boundary) (sql : Sql δ) :
    Keeps (fun s : State δ => s.boundaries.names = names) (send sql) := by
  intro s h
  exact (congrArg Boundaries.names (boundaries_send sql s.boundaries s rfl)).trans h

theorem names_write (names : List Boundary) :
    Keeps (fun s : State δ => s.boundaries.names = names) (write : Run δ Unit) := by
  unfold write
  refine .bind (keeps_inTransaction _) fun b => ?_
  split
  · exact .bind (names_send names _) fun _ => .modify fun _ h => h
  · exact .modify fun _ h => h

/-- A write goes into a block. -/
theorem of_write (h : exec write s = (.ok (), t)) : t.server.inTransaction = true := by
  unfold write at h
  obtain ⟨b, u, hin, h⟩ := of_exec_bind h
  obtain ⟨rfl, rfl⟩ := of_inTransaction hin
  rw [exec_ite] at h
  split at h
  · obtain ⟨_, v, hsend, h⟩ := of_exec_bind h
    cases h
    obtain ⟨server, hserver, rfl⟩ := Option.map_eq_some_iff.mp (of_send hsend).2
    obtain ⟨-, heq⟩ := Option.ite_none_left_eq_some.mp hserver
    cases heq
    rfl
  · next hin =>
    cases h
    simpa using hin

theorem of_openBoundary (h : exec openBoundary s = (.ok depth, t)) : depth = s.depth + 1 ∧ t.depth = s.depth + 1 := by
  unfold openBoundary at h
  obtain ⟨_, _, hget, h⟩ := of_exec_bind h
  cases hget
  rw [exec_ite] at h
  split at h
  · cases h
  · obtain ⟨_, u, hissued, h⟩ := of_exec_bind h
    dsimp only at h
    obtain ⟨b, v, hin, hbranch⟩ := of_exec_bind h
    obtain ⟨rfl, -⟩ := of_inTransaction hin
    have hnames : v.boundaries.names = s.boundaries.names := by
      cases hissued
      rfl
    have hrest : ∀ {name : Bytes} {next : Boundary} {w : State δ}, w.boundaries.names = s.boundaries.names →
        exec (do
          send (.statement (.savepoint name))
          modifyBoundaries fun b => {b with names := b.names ++ [next]}
          return (← get).depth) w = (.ok depth, t) → depth = s.depth + 1 ∧ t.depth = s.depth + 1 := by
      intro name next w hw hrun
      obtain ⟨_, x, hsend, hrun⟩ := of_exec_bind hrun
      cases hrun
      have hlength : (x.boundaries.names ++ [next]).length = s.depth + 1 := by
        rw [boundaries_of_send hsend, hw, List.length_append]
        rfl
      exact ⟨hlength, hlength⟩
    rw [exec_ite] at hbranch
    split at hbranch
    · obtain ⟨_, w, hbegin, hopen⟩ := of_exec_bind hbranch
      refine hrest ?_ hopen
      rw [boundaries_of_send hbegin, hnames]
    · exact hrest hnames hbranch

/-- A boundary that is not opened leaves those that were there. -/
theorem openBoundary_raising (names : List Boundary) :
    Raising (fun s : State δ => s.boundaries.names = names) (openBoundary : Run δ Nat) := by
  unfold openBoundary
  refine .bind .get fun s => ?_
  dsimp only
  split
  · exact .of_keeps (.throw _)
  · refine .bind (.modify fun _ h => h) fun _ => .bind (keeps_inTransaction _) fun b => ?_
    have hrest : ∀ name next, Raising (fun s : State δ => s.boundaries.names = names)
        (do
          send (.statement (.savepoint name))
          modifyBoundaries fun b => {b with names := b.names ++ [next]}
          return (← get).depth : Run δ Nat) :=
      fun name next => .bind (names_send names _) fun _ => .of_returns fun s => ⟨_, _, rfl⟩
    split
    · exact .bind (names_send names _) fun _ => hrest _ _
    · exact hrest _ _

/-! ### One operation -/

theorem sound_perform (depth : Nat) (op : Op δ) : Keeps (Sound start) (perform depth op) := by
  have hsteady := steady_sound start
  have hcommit : Keeps (Sound start) (send (.statement .commit)) := sound_send fun f hf => by cases hf
  cases op with
  | opens => exact .bind hsteady.openBoundary fun _ => .pure _
  | ends kept => exact hsteady.endScope kept depth
  | read => exact hsteady.reads
  | mark table consistent | floor depth => exact hsteady.boundaries _
  | commit => exact hsteady.commit hcommit
  | keep current =>
    refine .bind .get fun s => .ite (.throw _) (.ite (.throw _) ?_)
    refine .bind (hsteady.release 1) fun _ => .bind (hsteady.commit hcommit) fun _ => ?_
    exact .bind (hsteady.boundaries _) fun _ => .modify fun _ h => ⟨h.outside, h.logged, h.linked⟩
  | write f =>
    intro s hs
    have hwrite := hsteady.write s hs
    show Sound start (exec (write >>= fun _ => send (.data f)) s).2
    rw [exec_bind]
    rcases hrun : exec write s with ⟨e | _, t⟩ <;> rw [hrun] at hwrite
    · exact hwrite
    · have hdata : Keeps (fun t : State δ => Sound start t ∧ (t.link = .usable → t.server.inTransaction = true))
          (send (.data f)) := by
        refine send_keeps ?_ ?_ ?_ ?_
        · exact fun s h => ⟨⟨h.1.outside, h.1.logged, h.1.linked⟩, h.2⟩
        · intro s t h hlink hserve
          refine ⟨sound_serve h.1 hlink (fun _ _ => .inr (h.2 hlink)) hserve, fun _ => ?_⟩
          obtain ⟨server, hserver, rfl⟩ := Option.map_eq_some_iff.mp hserve
          obtain ⟨-, heq⟩ := Option.ite_none_left_eq_some.mp hserver
          cases heq
          exact h.2 hlink
        · exact fun s h => ⟨sound_refuse h.1 _, h.2⟩
        · exact fun s h => ⟨sound_dropped h.1 .broken, fun hlink => by cases hlink⟩
      exact (hdata t ⟨hwrite, fun _ => of_write hrun⟩).1

/-- What survives every statement but a commit survives every operation that commits nothing. -/
theorem keeps_perform {P : State δ → Prop} (h : Steady P) (hwrites : ∀ f, Keeps P (send (.data f)))
    (hop : op.commits = false) (depth : Nat) : Keeps P (perform depth op) := by
  cases op with
  | opens => exact .bind h.openBoundary fun _ => .pure _
  | ends kept => exact h.endScope kept depth
  | write f => exact .bind h.write fun _ => hwrites f
  | read => exact h.reads
  | mark table consistent | floor depth => exact h.boundaries _
  | commit | keep current => cases hop

/-- What survives every statement survives an operation that does not end the command. -/
theorem perform_going {P : State δ → Prop} (h : Steady P) (hsends : ∀ sql, Keeps P (send sql)) (depth : Nat)
    (hs : P s) (hrun : exec (perform depth op) s = (result, t))
    (hgoing : result.isOk = true → ∀ current, op ≠ .keep current) : P t := by
  have hall : Keeps P (perform depth op) ∨ ∃ current, op = .keep current := by
    cases hop : op.commits with
    | false => exact .inl (keeps_perform h (fun f => hsends _) hop depth)
    | true =>
      cases op with
      | commit => exact .inl (h.commit (hsends _))
      | keep current => exact .inr ⟨current, rfl⟩
      | _ => cases hop
  rcases hall with hkeeps | ⟨current, rfl⟩
  · have hkept := hkeeps s hs
    rwa [hrun] at hkept
  · cases result with
    | ok _ => exact absurd rfl (hgoing rfl current)
    | error e =>
      have hraising : Raising P (perform depth (.keep current)) := by
        refine .bind .get fun s => .ite (.of_keeps (.throw _)) (.ite (.of_keeps (.throw _)) ?_)
        refine .bind (h.release 1) fun _ => .bind (h.commit (hsends _)) fun _ => .of_returns fun s => ?_
        obtain ⟨t, ht, -⟩ := exec_detach s
        exact ⟨_, t, ht⟩
      exact hraising s e t hs hrun

/-! ### The scopes of a body -/

/-- The open scopes stand on boundaries of their own, above the command's. -/
def Nested (depth : Nat) (scopes : List Nat) : Prop := ((depth + 1) :: (scopes ++ [1])).Pairwise (· > ·)

theorem Nested.mono {depth' : Nat} (h : Nested depth scopes) (hle : depth ≤ depth') : Nested depth' scopes := by
  obtain ⟨hbelow, hrest⟩ := List.pairwise_cons.mp h
  refine List.pairwise_cons.mpr ⟨fun d hd => ?_, hrest⟩
  exact Nat.lt_of_lt_of_le (hbelow d hd) (Nat.succ_le_succ hle)

theorem Nested.opened (h : Nested depth scopes) : Nested (depth + 1) ((depth + 1) :: scopes) := by
  refine List.pairwise_cons.mpr ⟨fun d hd => ?_, h⟩
  rcases List.mem_cons.mp hd with rfl | hd
  · exact Nat.lt_succ_self _
  · exact Nat.lt_succ_of_lt ((List.pairwise_cons.mp h).1 d hd)

/-- The innermost scope ended, and its boundary with it, or none is gone. -/
theorem Nested.ended {depth' d : Nat} (h : Nested depth (d :: scopes))
    (hdepth : depth' = depth ∨ depth' = min (d - 1) depth) : Nested depth' scopes := by
  obtain ⟨hbelow, hrest⟩ := List.pairwise_cons.mp h
  have hd : d < depth + 1 := hbelow d List.mem_cons_self
  have houter : Nested (d - 1) scopes := by
    obtain ⟨hinner, hscopes⟩ := List.pairwise_cons.mp hrest
    refine List.pairwise_cons.mpr ⟨fun e he => ?_, hscopes⟩
    have hlt : e < d := hinner e he
    show e < d - 1 + 1
    omega
  exact houter.mono (by omega)

/-- A command's only boundary is its own. -/
theorem Nested.none_open (h : Nested 1 scopes) : scopes = [] := by
  cases scopes with
  | nil => rfl
  | cons d scopes =>
    obtain ⟨hbelow, hrest⟩ := List.pairwise_cons.mp h
    have hd : d < 2 := hbelow d List.mem_cons_self
    have hone : d > 1 := (List.pairwise_cons.mp hrest).1 1 (List.mem_append_right _ List.mem_cons_self)
    omega

theorem endScope_depth (kept : Bool) (depth : Nat) (s : State δ) :
    (exec (endScope kept depth) s).2.depth = s.depth ∨
      (exec (endScope kept depth) s).2.depth = min (depth - 1) s.depth := by
  have hlength : ∀ {names : List Boundary},
      names = s.boundaries.names ∨ names = s.boundaries.names.take (depth - 1) →
      names.length = s.depth ∨ names.length = min (depth - 1) s.depth := by
    rintro names (rfl | rfl)
    · exact .inl rfl
    · exact .inr List.length_take
  cases kept with
  | true => exact hlength (release_names depth s)
  | false => exact hlength (rollback_names depth s)

/-- The scopes after an operation, unless a commit raised and left fewer boundaries. -/
theorem nested_perform (hs : Sound start s)
    (hnested : Nested s.depth scopes) (hrun : exec (perform (scopes.headD 0) op) s = (result, t))
    (hgoing : result.isOk = true → ∀ current, op ≠ .keep current)
    (hfewer : result.isOk = false → op.commits = true → s.depth ≤ t.depth) :
    Nested t.depth (op.scopes scopes result.isOk t.depth) := by
  have hsame : ∀ {t : State δ}, t.boundaries.names = s.boundaries.names → Nested t.depth scopes := by
    intro t h
    unfold State.depth
    rw [h]
    exact hnested
  cases op with
  | opens =>
    change exec (openBoundary >>= fun _ => pure ()) s = _ at hrun
    rw [exec_bind] at hrun
    rcases hopen : exec openBoundary s with ⟨e | depth, u⟩ <;> rw [hopen] at hrun <;> cases hrun
    · exact hsame (openBoundary_raising s.boundaries.names s e _ rfl hopen)
    · rw [(of_openBoundary hopen).2]
      exact hnested.opened
  | ends kept =>
    cases scopes with
    | nil =>
      have hzero : exec (endScope kept 0) s = (.ok (), s) := by cases kept <;> rfl
      cases hzero.symm.trans hrun
      exact hnested
    | cons d scopes =>
      have hdepth := endScope_depth kept d s
      rw [show exec (endScope kept d) s = (result, t) from hrun] at hdepth
      exact hnested.ended hdepth
  | write f =>
    have hnames : Keeps (fun u : State δ => u.boundaries.names = s.boundaries.names)
        (write >>= fun _ => send (.data f)) := .bind (names_write _) fun _ => names_send _ _
    have hkept := hnames s rfl
    rw [show exec (write >>= fun _ => send (.data f)) s = (result, t) from hrun] at hkept
    exact hsame hkept
  | read =>
    have hkept := names_send s.boundaries.names (.data id) s rfl
    rw [show exec (send (.data id)) s = (result, t) from hrun] at hkept
    exact hsame hkept
  | mark table consistent | floor depth =>
    cases hrun
    exact hsame rfl
  | commit =>
    cases result with
    | ok _ => exact hnested.mono (Nat.le_of_eq (of_commit hs hrun).2.1.symm)
    | error e => exact hnested.mono (hfewer rfl rfl)
  | keep current =>
    cases result with
    | ok _ => exact absurd rfl (hgoing rfl current)
    | error e => exact hnested.mono (hfewer rfl rfl)

/-! ### The invariant of a body -/

structure Intact (start : δ) (c : Course δ) : Prop where
  sound : Sound start c.state
  active : c.state.attached = true → c.state.link ≠ .closed ∧ c.kept = none ∧
    (c.torn = false → c.state.server.committed = c.settled)
  nested : c.state.attached = true → c.bereft = false → Nested c.state.depth c.scopes
  ended : c.state.attached = false → Left c.state ∧ c.kept = some c.state.server.committed

theorem step_ended (op : Op δ) (h : c.state.attached = false) : step op c = c := by
  unfold step
  simp [h]

theorem step_active (op : Op δ) (hattached : c.state.attached = true)
    (hrun : exec (perform (c.scopes.headD 0) op) c.state = (result, t)) :
    step op c = c.after op result.isOk t := by
  unfold step
  rw [if_pos hattached, hrun]

theorem of_log (hs : Sound start s) (ht : Sound start t) (h : t.commits = s.commits) :
    t.server.committed = s.server.committed := by
  rw [ht.logged, h, hs.logged]

/-- What is durable when a commit has not raised after the server's own. -/
theorem committed_after (h : Intact start c) (hattached : c.state.attached = true) (ht : Sound start t)
    (hrun : exec (perform (c.scopes.headD 0) op) c.state = (result, t))
    (hgoing : result.isOk = true → ∀ current, op ≠ .keep current)
    (hwhole : (c.after op result.isOk t).torn = false) :
    t.server.committed = (c.after op result.isOk t).settled := by
  obtain ⟨hbefore, hlost⟩ := Bool.or_eq_false_iff.mp hwhole
  have hsettled := (h.active hattached).2.2 hbefore
  cases hop : op.commits with
  | false =>
    have hlog := keeps_perform (steady_log c.state.commits) (fun f => log_send (fun _ => rfl) _) hop
      (c.scopes.headD 0) c.state rfl
    rw [hrun] at hlog
    have hsame : (c.after op result.isOk t).settled = c.settled := by
      cases op with
      | commit => cases hop
      | _ => rfl
    rw [of_log h.sound ht hlog, hsettled, hsame]
  | true =>
    cases result with
    | error e =>
      have hgrows : c.state.commits <:+ t.commits :=
        perform_going (steady_grows c.state.commits) (grows_send _) _ (List.suffix_refl _) hrun hgoing
      have hlength : t.commits.length = c.state.commits.length := by
        simpa [hop, Except.isOk, Except.toBool] using hlost
      have hsame : (c.after op false t).settled = c.settled := by
        cases op <;> rfl
      show t.server.committed = (c.after op false t).settled
      rw [of_log h.sound ht (hgrows.eq_of_length hlength.symm).symm, hsettled, hsame]
    | ok _ =>
      cases op with
      | keep current => exact absurd rfl (hgoing rfl current)
      | commit =>
        obtain ⟨-, -, hcommitted, hunder, -⟩ := of_commit h.sound hrun
        show t.server.committed = if c.state.boundaries.isolationFloor = 0 then c.state.server.data else c.settled
        split
        · next hfloor => exact hcommitted hfloor
        · next hfloor => rw [of_log h.sound ht (hunder hfloor), hsettled]
      | _ => cases hop

theorem intact_step (op : Op δ) (h : Intact start c) : Intact start (step op c) := by
  cases hattached : c.state.attached with
  | false =>
    rw [step_ended op hattached]
    exact h
  | true =>
    obtain ⟨hlink, hkept, -⟩ := h.active hattached
    rcases hrun : exec (perform (c.scopes.headD 0) op) c.state with ⟨result, t⟩
    have ht : Sound start t := by
      have hsound := @sound_perform δ start (c.scopes.headD 0) op c.state h.sound
      rwa [hrun] at hsound
    rw [step_active op hattached hrun]
    by_cases hends : ∃ current, op = .keep current ∧ result.isOk = true
    · obtain ⟨current, rfl, hok⟩ := hends
      cases result with
      | error e => cases hok
      | ok _ =>
        obtain ⟨-, -, hcommitted, hleft⟩ := of_keep h.sound hrun
        have hleaves : t.attached ≠ true := by simp [hleft.detached]
        refine ⟨ht, fun hon => absurd hon hleaves, fun hon => absurd hon hleaves, fun _ => ⟨hleft, ?_⟩⟩
        exact congrArg some hcommitted.symm
    · have hgoing : result.isOk = true → ∀ current, op ≠ .keep current :=
        fun hok current heq => hends ⟨current, heq, hok⟩
      have hlive : Live t := perform_going steady_live live_send _ ⟨hattached, hlink⟩ hrun hgoing
      have hnot : (c.after op result.isOk t).kept = none := by
        cases op with
        | keep current =>
          cases result with
          | ok _ => exact absurd rfl (hgoing rfl current)
          | error e => exact hkept
        | _ => exact hkept
      refine ⟨ht, fun _ => ⟨hlive.2, hnot, committed_after h hattached ht hrun hgoing⟩, fun _ hstands => ?_, ?_⟩
      · obtain ⟨hbefore, hlost⟩ := Bool.or_eq_false_iff.mp hstands
        refine nested_perform h.sound (h.nested hattached hbefore) hrun hgoing fun hraised hop => ?_
        show c.state.depth ≤ t.depth
        simpa [hraised, hop] using hlost
      · intro hoff
        cases hlive.1.symm.trans hoff

theorem intact_run (ops : List (Op δ)) (h : Intact start c) : Intact start (run c ops) := by
  induction ops generalizing c with
  | nil => exact h
  | cons op ops ih => exact ih (intact_step op h)

/-! ### The whole command -/

theorem exec_attach (hs : Idle s) : exec attach s = (.ok (), {s with attached := true}) := by
  have hdepth : s.depth = 0 := by
    unfold State.depth
    rw [hs.boundaries]
    rfl
  simp [attach, exec_bind, hs.own, hs.usable, hs.detached, hdepth, hs.block]

theorem sound_idle (hs : Idle s) : Sound s.server.committed s :=
  ⟨fun _ => ⟨hs.sound, hs.settled⟩, by rw [hs.fresh]; rfl, fun hlink => absurd hs.usable hlink⟩

/-- A command that is constructed has one boundary, and one that is not has left the session. -/
theorem exec_construct (hs : Idle s) :
    (∃ t, exec construct s = (.ok (), t) ∧ Intact s.server.committed (begun s)) ∨
      ∃ e t, exec construct s = (.error e, t) ∧ Left t ∧ t.server.committed = s.server.committed := by
  have hidle := sound_idle hs
  have hstart : Sound s.server.committed {s with attached := true} := ⟨hidle.outside, hidle.logged, hidle.linked⟩
  have hlive : Live {s with attached := true} := by
    refine ⟨rfl, ?_⟩
    show s.link ≠ .closed
    rw [hs.usable]
    simp
  have hsteady := ((steady_sound s.server.committed).and (steady_log (δ := δ) [])).and steady_live
  have hkeeps : Keeps (fun t : State δ => (Sound s.server.committed t ∧ t.commits = []) ∧ Live t)
      (openBoundary >>= fun _ => resolveUser) :=
    .bind hsteady.openBoundary fun _ => .bind hsteady.reads fun _ => hsteady.checks .inactiveUser
  have hbody := hkeeps {s with attached := true} ⟨⟨hstart, hs.fresh⟩, hlive⟩
  have hconstruct : exec construct s = exec (tryCatch (openBoundary >>= fun _ => resolveUser) fun failure =>
      destroy >>= fun _ => throw failure) {s with attached := true} := by
    unfold construct
    rw [exec_bind_ok (exec_attach hs)]
  rw [exec_tryCatch] at hconstruct
  rcases hrun : exec (openBoundary >>= fun _ => resolveUser) {s with attached := true} with ⟨e | _, t⟩ <;>
    rw [hrun] at hbody hconstruct <;> obtain ⟨⟨ht, hlog⟩, hactive⟩ := hbody
  · obtain ⟨u, hdestroy, hcommitted, -, hleft⟩ := exec_destroy ht hactive.1
    refine .inr ⟨e, u, ?_, hleft, ?_⟩
    · rw [hconstruct]
      dsimp only
      rw [exec_bind_ok hdestroy]
      rfl
    · rw [hcommitted, of_log hidle ht (hlog.trans hs.fresh.symm)]
  · have hbegun : (begun s).state = t := congrArg Prod.snd hconstruct
    have hdepth : t.depth = 1 := by
      obtain ⟨depth, u, hopen, hresolve⟩ := of_exec_bind hrun
      have hnames : Keeps (fun v : State δ => v.boundaries.names = u.boundaries.names) resolveUser :=
        .bind (names_send _ _) fun _ => keeps_check (fun _ _ h => h) _
      have hsame := Returning.of_keeps hnames u () t rfl hresolve
      have hone : u.depth = s.depth + 1 := (of_openBoundary hopen).2
      have hnone : s.depth = 0 := congrArg List.length hs.boundaries
      rw [State.depth, hsame, ← State.depth, hone, hnone]
    refine .inl ⟨t, hconstruct, hbegun ▸ ht, fun _ => ⟨hbegun ▸ hactive.2, rfl, fun _ => ?_⟩, fun _ _ => ?_,
      fun hoff => ?_⟩
    · rw [hbegun]
      exact of_log hidle ht (hlog.trans hs.fresh.symm)
    · rw [hbegun, hdepth]
      show ([2, 1] : List Nat).Pairwise (· > ·)
      decide
    · rw [hbegun, hactive.1] at hoff
      cases hoff

/-- What the end of a command leaves, after any body. -/
theorem finish_intact (h : Intact start c) :
    Left (finish c).state ∧ (finish c).state.server.committed = c.state.server.committed ∧
      (finish c).state.commits = c.state.commits := by
  unfold finish
  cases hattached : c.state.attached with
  | true =>
    obtain ⟨t, hdestroy, hcommitted, hcommits, hleft⟩ := exec_destroy h.sound hattached
    rw [hdestroy]
    exact ⟨hleft, hcommitted, hcommits⟩
  | false =>
    have hnothing : exec destroy c.state = (.ok (), c.state) := by
      unfold destroy
      rw [exec_bind, exec_get]
      simp [hattached]
    rw [hnothing]
    exact ⟨(h.ended hattached).1, rfl, rfl⟩

/-- A command whose constructor raised has left the session, and nothing of it is durable. Whatever the body of
a constructed one does, its end leaves the session; durable is what the server's last commit for it committed:
what `Keep` found where `Keep` returned, and else what the last `Commit` found, unless a `Commit` or a `Keep`
raised after the server's own commit. `Keep` returns from the command's boundary alone, with no failure
pending. -/
theorem session_command {s : State δ} (hs : Idle s) :
    (∀ e t, exec construct s = (.error e, t) → Left t ∧ t.server.committed = s.server.committed) ∧
      ∀ t, exec construct s = (.ok (), t) → ∀ ops : List (Op δ),
        let body := run (begun s) ops
        let final := (finish body).state
        Left final ∧ final.server.committed = final.commits.headD s.server.committed ∧
          (∀ d, body.kept = some d → final.server.committed = d) ∧
          (body.torn = false → final.server.committed = body.kept.getD body.settled) ∧
          ∀ current u, exec (keep current) body.state = (.ok (), u) →
            body.state.depth = 1 ∧ body.state.server.failed = false ∧
                (body.bereft = false → body.scopes = []) := by
  rcases exec_construct hs with ⟨t, hconstruct, hbegun⟩ | ⟨e, t, hconstruct, hleft, hcommitted⟩
  · refine ⟨fun e u h => ?_, fun _ _ ops => ?_⟩
    · cases hconstruct.symm.trans h
    · have hbody := intact_run ops hbegun
      obtain ⟨hleft, hsame, hcommits⟩ := finish_intact hbody
      refine ⟨hleft, ?_, fun d hd => ?_, fun htorn => ?_, fun current u hkeep => ?_⟩
      · rw [hsame, hcommits]
        exact hbody.sound.logged
      · rw [hsame]
        cases hattached : (run (begun s) ops).state.attached with
        | true => cases (hbody.active hattached).2.1.symm.trans hd
        | false => exact Option.some.inj ((hbody.ended hattached).2.symm.trans hd)
      · rw [hsame]
        cases hattached : (run (begun s) ops).state.attached with
        | true =>
          obtain ⟨-, hkept, hsettled⟩ := hbody.active hattached
          rw [hkept]
          exact hsettled htorn
        | false =>
          rw [(hbody.ended hattached).2]
          rfl
      · obtain ⟨hdepth, hfailed, -⟩ := of_keep hbody.sound hkeep
        refine ⟨hdepth, hfailed, fun hstands => ?_⟩
        have hattached : (run (begun s) ops).state.attached = true := by
          cases hoff : (run (begun s) ops).state.attached with
          | true => rfl
          | false =>
            have hended : exec (keep current) (run (begun s) ops).state =
                (.error .ended, (run (begun s) ops).state) := by
              unfold keep
              rw [exec_bind, exec_get]
              simp [hoff]
            cases hended.symm.trans hkeep
        have hnested := hbody.nested hattached hstands
        rw [hdepth] at hnested
        exact hnested.none_open
  · refine ⟨fun e' u h => ?_, fun u h => ?_⟩
    · cases hconstruct.symm.trans h
      exact ⟨hleft, hcommitted⟩
    · cases hconstruct.symm.trans h

/-- A session with one number, over a connection with these fates. -/
def numbered (fates : List Fate) : State Nat := {server := ⟨0, 0, false, false, []⟩, fates}

theorem idle_numbered (fates : List Fate) : Idle (numbered fates) := by
  constructor <;> rfl

theorem session_command_numbered :
    (∀ e t, exec construct (numbered []) = (.error e, t) → Left t ∧ t.server.committed = 0) ∧
      ∀ t, exec construct (numbered []) = (.ok (), t) → ∀ ops : List (Op Nat),
        let body := run (begun (numbered [])) ops
        let final := (finish body).state
        Left final ∧ final.server.committed = final.commits.headD 0 ∧
          (∀ d, body.kept = some d → final.server.committed = d) ∧
          (body.torn = false → final.server.committed = body.kept.getD body.settled) ∧
          ∀ current u, exec (keep current) body.state = (.ok (), u) →
            body.state.depth = 1 ∧ body.state.server.failed = false ∧ (body.bereft = false → body.scopes = []) :=
  session_command (idle_numbered [])

/-- Where the connection is lost after the server's commit, at the next block, the write is durable although no
`Keep` returned, and no `Commit`. Where that block is refused, and the command goes on, a `Keep` takes the
boundary of an open scope for the command's. -/
theorem kept_without_keep :
    (let lost := numbered [.served, .served, .served, .served, .served, .lost false]
     let body := run (begun lost) [.write (· + 1), .commit]
     body.kept = none ∧ body.settled = 0 ∧ (finish body).state.server.committed = 1) ∧
      let refused := numbered [.served, .served, .served, .served, .refused]
      let body := run (begun refused) [.commit, .opens]
      (exec (keep true) body.state).1 = .ok () ∧ body.scopes = [1] := by
  decide

end Agiru.Command
