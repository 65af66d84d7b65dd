import Agiru.Authority.Storage

/-! What the locks of `LockCommit` keep until the commit behind it.

Others leave the rows alone that a call has shared, so what it asked for holds of the rows that its commit leaves
(`commit_authorized`). Revocations are not taken back, so a call whose authority has ended never commits again
(`ended_never_commits`). -/
namespace Agiru.Authority
open RowLocks Undo Relation

variable {secureTokenDigest : String → String}
variable {t : Rows}
variable {call : Call}
variable {t' : Rows}

/-! ### What `Live` reads -/

theorem keys_congr (h : ∀ k ∈ call.keys t, t' k = t k) : call.keys t' = call.keys t := by
  unfold Call.keys at h ⊢
  split_ifs at h ⊢ with hcsrf
  · rfl
  · rw [Rows.browser, Rows.browser, h _ List.mem_cons_self]

/-- `Live` reads the rows that it joins. -/
theorem live_congr (h : ∀ k ∈ call.keys t, t' k = t k) (now : Nat) :
    live secureTokenDigest t' call now = live secureTokenDigest t call now := by
  unfold live
  unfold Call.keys at h
  split_ifs at h ⊢ with hcsrf
  · rw [Rows.credential, Rows.credential, Rows.context, Rows.context, h _ List.mem_cons_self,
      h _ (List.mem_cons_of_mem _ List.mem_cons_self)]
  · have hbrowser : t'.browser call.credential = t.browser call.credential := by
      rw [Rows.browser, Rows.browser, h _ List.mem_cons_self]
    have hcontext : t'.context call.pageHandle = t.context call.pageHandle := by
      rw [Rows.context, Rows.context, h _ (List.mem_cons_of_mem _ List.mem_cons_self)]
    rw [hbrowser, hcontext]
    cases hb : t.browser call.credential with
    | none => rfl
    | some b =>
      have hsource : t'.credential b.source = t.credential b.source := by
        rw [hb] at h
        rw [Rows.credential, Rows.credential, h _ (by simp)]
      cases t.context call.pageHandle <;> simp only [hsource]

theorem activeUser_congr {id : String} (h : t' (.user id) = t (.user id)) (now : Nat) :
    activeUser t' id now = activeUser t id now := by
  rw [activeUser, activeUser, Rows.user, Rows.user, h]

/-! ### What a call knows before its commit -/

variable {ι : Type} [DecidableEq ι] {s s' : State ι} {i j : ι}

/-- Behind the lock of the user. -/
def Pc.userLocked : Pc → Bool
  | .checkLocked | .lockLive | .wait _ | .commit => true
  | .body | .checkLive | .checkUser | .lockUser => false

/-- Behind the look at the user that is locked. -/
def Pc.userActive : Pc → Bool
  | .lockLive | .wait _ | .commit => true
  | .body | .checkLive | .checkUser | .lockUser | .checkLocked => false

structure Knows (secureTokenDigest : String → String) (s : State ι) (i : ι) : Prop where
  asked : (s.connections i).asked.1 ≤ s.clock ∧ (s.connections i).asked.2 ≤ s.today
  locked : (s.connections i).pc.userLocked = true → ∀ call, (s.connections i).call = some call →
    s.store.shared i (.user call.user)
  active : (s.connections i).pc.userActive = true → ∀ call, (s.connections i).call = some call →
    ∃ now, (s.connections i).asked.2 ≤ now ∧ now ≤ s.today ∧ activeUser s.store.rows call.user now = true
  began : ∀ began, (s.connections i).pc = .wait began → (s.connections i).asked.1 ≤ began
  live : (s.connections i).pc = .commit → ∀ call, (s.connections i).call = some call →
    (∃ now, (s.connections i).asked.1 ≤ now ∧ now ≤ s.clock ∧
      live secureTokenDigest (s.store.view i) call now = true) ∧
    ∀ k ∈ call.keys (s.store.view i), s.store.shared i k

omit [DecidableEq ι] in
/-- What a call knows it knows as long as the rows that it shares stay. -/
theorem Knows.later (h : Knows secureTokenDigest s i) (hconnection : s'.connections i = s.connections i)
    (hclock : s.clock ≤ s'.clock) (htoday : s.today ≤ s'.today) (hshared : s'.store.shared i = s.store.shared i)
    (hview : ∀ k, s.store.shared i k → s'.store.view i k = s.store.view i k)
    (hrows : ∀ k, s.store.shared i k → s'.store.rows k = s.store.rows k)
    (hlocked : (s.connections i).pc.userActive = true → (s.connections i).pc.userLocked = true) :
    Knows secureTokenDigest s' i := by
  refine ⟨?_, fun hpc call hcall => ?_, fun hpc call hcall => ?_, fun began hpc => ?_, fun hpc call hcall => ?_⟩ <;>
    rw [hconnection] at *
  · exact ⟨Nat.le_trans h.asked.1 hclock, Nat.le_trans h.asked.2 htoday⟩
  · rw [hshared]
    exact h.locked hpc call hcall
  · obtain ⟨now, hasked, hnow, hactive⟩ := h.active hpc call hcall
    have huser := hrows _ (h.locked (hlocked hpc) call hcall)
    exact ⟨now, hasked, Nat.le_trans hnow htoday, (activeUser_congr huser now).trans hactive⟩
  · exact h.began began hpc
  · obtain ⟨⟨now, hasked, hnow, hlive⟩, hkeys⟩ := h.live hpc call hcall
    have hsame : ∀ k ∈ call.keys (s.store.view i), s'.store.view i k = s.store.view i k :=
      fun k hk => hview k (hkeys k hk)
    refine ⟨⟨now, hasked, Nat.le_trans hnow hclock, (live_congr hsame now).trans hlive⟩, fun k hk => ?_⟩
    rw [keys_congr hsame] at hk
    rw [hshared]
    exact hkeys k hk

theorem userLocked_of_userActive {pc : Pc} (h : pc.userActive = true) : pc.userLocked = true := by
  cases pc with
  | lockLive | wait | commit => rfl
  | _ => cases h

structure Inv (secureTokenDigest : String → String) (s : State ι) : Prop where
  locks : RowLocks.Inv Becomes s.store
  knows : ∀ i, Knows secureTokenDigest s i

/-- A step of one connection: what the others know they still know. -/
theorem Inv.moved (h : Inv secureTokenDigest s) {connection : Connection} {store : Store ι Key Cell}
    (hmove : store = s.store ∨ Move Becomes i s.store store)
    (hknows : Knows secureTokenDigest (({s with store} : State ι).put i connection) i) :
    Inv secureTokenDigest (({s with store} : State ι).put i connection) := by
  refine ⟨?_, fun j => ?_⟩
  · rcases hmove with rfl | hmove
    · exact h.locks
    · exact hmove.inv h.locks
  · by_cases hj : j = i
    · exact hj ▸ hknows
    · refine (h.knows j).later (Function.update_of_ne hj ..) (Nat.le_refl _) (Nat.le_refl _) ?_ ?_ ?_
        userLocked_of_userActive <;>
        rcases hmove with rfl | hmove
      · rfl
      · exact hmove.shared_eq hj
      · exact fun _ _ => rfl
      · exact fun k hshared => hmove.view_eq h.locks hj (.inl hshared)
      · exact fun _ _ => rfl
      · exact fun k hshared => hmove.rows_eq h.locks hj (.inl hshared)

omit [DecidableEq ι] in
/-- Time passes. -/
theorem Inv.time (h : Inv secureTokenDigest s) {clock today steady : Nat} (hclock : s.clock ≤ clock)
    (htoday : s.today ≤ today) : Inv secureTokenDigest {s with clock, today, steady} :=
  ⟨h.locks, fun i => (h.knows i).later rfl hclock htoday rfl (fun _ _ => rfl) (fun _ _ => rfl) userLocked_of_userActive⟩

section
variable {connection : Connection} {store : Store ι Key Cell}

theorem put_self : (({s with store} : State ι).put i connection).connections i = connection := Function.update_self ..

theorem knows_put (hasked : connection.asked.1 ≤ s.clock ∧ connection.asked.2 ≤ s.today)
    (hlocked : connection.pc.userLocked = true → ∀ call, connection.call = some call → store.shared i (.user call.user))
    (hactive : connection.pc.userActive = true → ∀ call, connection.call = some call →
      ∃ now, connection.asked.2 ≤ now ∧ now ≤ s.today ∧ activeUser store.rows call.user now = true)
    (hbegan : ∀ began, connection.pc = .wait began → connection.asked.1 ≤ began)
    (hlive : connection.pc = .commit → ∀ call, connection.call = some call →
      (∃ now, connection.asked.1 ≤ now ∧ now ≤ s.clock ∧ live secureTokenDigest (store.view i) call now = true) ∧
      ∀ k ∈ call.keys (store.view i), store.shared i k) :
    Knows secureTokenDigest (({s with store} : State ι).put i connection) i := by
  refine ⟨?_, ?_, ?_, ?_, ?_⟩ <;> rw [put_self]
  · exact hasked
  · exact hlocked
  · exact hactive
  · exact hbegan
  · exact hlive

/-- A connection that has locked nothing for a commit. -/
theorem knows_early (hpc : connection.pc.userLocked = false)
    (hasked : connection.asked.1 ≤ s.clock ∧ connection.asked.2 ≤ s.today) :
    Knows secureTokenDigest (({s with store} : State ι).put i connection) i := by
  refine knows_put hasked (fun hlocked => ?_) (fun hactive => ?_) (fun began hbegan => ?_) fun hcommit => ?_
  · rw [hpc] at hlocked
    cases hlocked
  · rw [userLocked_of_userActive hactive] at hpc
    cases hpc
  · rw [hbegan] at hpc
    cases hpc
  · rw [hcommit] at hpc
    cases hpc

end

theorem Inv.step (h : Inv secureTokenDigest s) (hstep : Step secureTokenDigest s s') : Inv secureTokenDigest s' := by
  cases hstep with
  | time clock today steady hclock htoday => exact h.time hclock htoday
  | start i call cancelled => exact h.moved (.inl rfl) (knows_early rfl ⟨Nat.zero_le _, Nat.zero_le _⟩)
  | body i store hpc hmove =>
    have hsame : ({s with store} : State ι) = ({s with store} : State ι).put i (s.connections i) := by
      rw [State.put, Function.update_eq_self]
    rw [hsame]
    exact h.moved (.inr hmove) (knows_early (by rw [hpc]; rfl) (h.knows i).asked)
  | ask i => exact h.moved (.inl rfl) (knows_early rfl ⟨Nat.le_refl _, Nat.le_refl _⟩)
  | checkLive i | checkUser i | refused i => exact h.moved (.inl rfl) (knows_early rfl (h.knows i).asked)
  | lockUser i call store hpc hcall hfree hfound hstore =>
    subst hstore
    refine h.moved (.inr (.share (fun k => k = Key.user call.user) (fun k hk => by rw [hk]; exact hfree))) ?_
    refine knows_put (h.knows i).asked (fun _ call' hcall' => ?_) (fun hactive => ?_) (fun _ hbegan => ?_)
      fun hcommit => ?_
    · obtain rfl := Option.some.inj (hcall.symm.trans hcall')
      dsimp only
      rw [Function.update_self]
      exact .inr rfl
    · cases hactive
    · cases hbegan
    · cases hcommit
  | checkLocked i call hpc hcall hactive =>
    have hknows := h.knows i
    refine h.moved (.inl rfl) (knows_put hknows.asked (fun _ => hknows.locked (by rw [hpc]; rfl))
      (fun _ call' hcall' => ?_) (fun _ hbegan => ?_) fun hcommit => ?_)
    · obtain rfl := Option.some.inj (hcall.symm.trans hcall')
      exact ⟨s.today, hknows.asked.2, Nat.le_refl _, hactive⟩
    · cases hbegan
    · cases hcommit
  | lockLive i hpc =>
    have hknows := h.knows i
    refine h.moved (.inl rfl) (knows_put hknows.asked (fun _ => hknows.locked (by rw [hpc]; rfl))
      (fun _ => hknows.active (by rw [hpc]; rfl)) (fun began hbegan => ?_) fun hcommit => ?_)
    · cases hbegan
      exact hknows.asked.1
    · cases hcommit
  | locked i call began now store hpc hcall hbegan hnow hlive hfree hstore =>
    have hknows := h.knows i
    subst hstore
    refine h.moved (.inr (.share (fun k => k ∈ call.keys (s.store.view i)) hfree))
      (knows_put hknows.asked (fun _ call' hcall' => ?_) (fun _ => hknows.active (by rw [hpc]; rfl))
        (fun _ hwait => ?_) fun _ call' hcall' => ?_)
    · dsimp only
      rw [Function.update_self]
      exact .inl (hknows.locked (by rw [hpc]; rfl) call' hcall')
    · cases hwait
    · obtain rfl := Option.some.inj (hcall.symm.trans hcall')
      refine ⟨⟨now, Nat.le_trans (hknows.began began hpc) hbegan, hnow, hlive⟩, fun k hk => ?_⟩
      dsimp only
      rw [Function.update_self]
      exact .inr hk
  | cancel i =>
    have hknows := h.knows i
    exact h.moved (.inl rfl) (knows_put hknows.asked hknows.locked hknows.active hknows.began hknows.live)
  | commit i => exact h.moved (.inr .commit) (knows_early rfl (h.knows i).asked)
  | above i => exact h.moved (.inl rfl) (knows_early rfl (h.knows i).asked)
  | rollback i store hstore =>
    subst hstore
    exact h.moved (.inr .rollback) (knows_early rfl (h.knows i).asked)

theorem Reached.inv (h : Reached secureTokenDigest s) : Inv secureTokenDigest s := by
  refine h.invariant ?_ fun s t hinv hstep => hinv.step hstep
  rintro _ ⟨clock, today, steady, rows, rfl⟩
  refine ⟨RowLocks.Inv.initial rows, fun i => ⟨⟨Nat.zero_le _, Nat.zero_le _⟩, fun hlocked => ?_, fun hactive => ?_,
    fun _ hbegan => ?_, fun hcommit => ?_⟩⟩
  · cases hlocked
  · cases hactive
  · cases hbegan
  · cases hcommit

/-! ### What every commit has -/

theorem Inv.authorized (h : Inv secureTokenDigest s) (hcall : (s.connections i).call = some call)
    (hmay : s.MayCommit i) :
    (∃ now, (s.connections i).asked.1 ≤ now ∧ now ≤ s.clock ∧
      live secureTokenDigest (s.commit i).store.rows call now = true) ∧
    ∃ today, (s.connections i).asked.2 ≤ today ∧ today ≤ s.today ∧
      activeUser s.store.rows call.user today = true := by
  have hknows := h.knows i
  rcases hmay with hnone | hpc
  · rw [hcall] at hnone
    cases hnone
  · exact ⟨(hknows.live hpc call hcall).1, hknows.active (by rw [hpc]; rfl) call hcall⟩

/-- **A page's call commits only what it may.** Whatever revokes, renews, invalidates or deletes while it runs, in the
rows that its commit leaves `Live` finds what it asks for, at a time since `LockCommit` was called, and up to the commit
the user was active: neither has been taken back. -/
theorem commit_authorized (h : Reached secureTokenDigest s) {call : Call} (hcall : (s.connections i).call = some call)
    (hmay : s.MayCommit i) :
    (∃ now, (s.connections i).asked.1 ≤ now ∧ now ≤ s.clock ∧
      live secureTokenDigest (s.commit i).store.rows call now = true) ∧
    ∃ today, (s.connections i).asked.2 ≤ today ∧ today ≤ s.today ∧
      activeUser s.store.rows call.user today = true :=
  h.inv.authorized hcall hmay

/-- A user with a credential and the browser session that it started, and a page opened in that. -/
def browserRow : Browser := ⟨"c", "u", "token", 10, 10, none⟩

def pageRows : Rows
  | .user "u" => .row (.user ⟨"U", true, none⟩)
  | .credential "c" => .row (.credential ⟨"u", 10, none⟩)
  | .browser "b" => .row (.browser browserRow)
  | .context "h" => .row (.context ⟨"u", "host", "company", some "b", 10, false⟩)
  | _ => .unused

def pageCall : Call := ⟨"h", "host", "company", "token", "b", "u", 10⟩

/-- One of two connections runs the call, and has all checks of `LockCommit` behind it but the last. -/
def checked : State Bool :=
  let s : State Bool := ⟨1, 1, 1, ⟨pageRows, fun _ _ => False, fun _ _ => none⟩, fun _ => {}⟩
  let s := s.put true {call := some pageCall}
  let s := s.put true {s.connections true with pc := .checkLive, asked := (1, 1)}
  let s := (s.goto true .checkUser).goto true .lockUser
  let shared := Function.update s.store.shared true fun k => s.store.shared true k ∨ k = .user "u"
  let s : State Bool := {s with store := {s.store with shared}}
  (s.goto true .checkLocked).goto true .lockLive

theorem checked_reached : Reached id checked := by
  have h : Reached id (⟨1, 1, 1, ⟨pageRows, fun _ _ => False, fun _ _ => none⟩, fun _ => {}⟩ : State Bool) :=
    ⟨_, ⟨1, 1, 1, pageRows, rfl⟩, .refl⟩
  have h := h.step (.start true (some pageCall) false (fun _ => rfl) (fun _ => not_false))
  have h := h.step (.ask true pageCall rfl rfl rfl (by decide))
  have h := h.step (.checkLive true pageCall rfl rfl (by decide))
  have h := h.step (.checkUser true pageCall rfl rfl (by decide))
  have h := h.step (.lockUser true pageCall _ rfl rfl (fun _ _ => rfl) (by decide) rfl)
  exact h.step (.checkLocked true pageCall rfl rfl (by decide))

/-- The other connection writes the row of the browser session, and commits. -/
def State.overtaken (s : State Bool) (row : Browser) : State Bool :=
  let pending := Function.update s.store.pending false
    (Function.update (s.store.pending false) (.browser "b") (some (.row (.browser row))))
  ({s with store := {s.store with pending}} : State Bool).commit false

theorem overtaken_reached {row : Browser} (h : Becomes (.row (.browser browserRow)) (.row (.browser row))) :
    Reached id (checked.overtaken row) := by
  have hfree : checked.store.Free false (.browser "b") := by
    intro j hj
    obtain rfl : j = true := by simpa using hj
    exact ⟨rfl, by simp [checked, State.put, State.goto]⟩
  have hbecomes : Becomes (checked.store.view false (.browser "b")) (.row (.browser row)) := h
  have hwrite := Move.write _ _ hfree hbecomes
  exact (checked_reached.step (.body false _ rfl hwrite rfl)).step (.commit false (.inl rfl))

/-- The browser session is renewed before the call locks it. -/
theorem commit_authorized_renewed : ∃ s : State Bool, s.MayCommit true ∧
    ∃ now, now ≤ s.clock ∧ live id (s.commit true).store.rows pageCall now = true := by
  have h := overtaken_reached (.renewed browserRow 20 rfl)
  have h := h.step (.lockLive true rfl)
  have hunwritten : ∀ k, (checked.overtaken {browserRow with idleExpiresAt := 20}).store.Unwritten true k := by
    intro k j hj
    obtain rfl : j = false := by simpa using hj
    rfl
  have h := h.step (.locked true pageCall 1 1 _ rfl rfl (Nat.le_refl _) (Nat.le_refl _) (by decide)
    (fun k _ => hunwritten k) rfl)
  obtain ⟨⟨now, -, hnow, hlive⟩, -⟩ := @commit_authorized id Bool _ _ true h pageCall rfl (.inr rfl)
  exact ⟨_, .inr rfl, now, hnow, hlive⟩

/-! ### What is not taken back -/

/-- Revoked, invalidated or gone. -/
def Cell.dead : Cell → Bool
  | .unused => false
  | .deleted => true
  | .row (.user _) => false
  | .row (.credential c) => c.revokedAt.isSome
  | .row (.browser b) => b.revokedAt.isSome
  | .row (.context p) => p.invalidated

theorem Becomes.dead {c c' : Cell} (h : Becomes c c') (hdead : c.dead = true) : c'.dead = true := by
  cases h with
  | inserted | user => cases hdead
  | deleted | revoked | ended => rfl
  | renewed row idleExpiresAt hlive =>
    rw [Cell.dead, hlive] at hdead
    cases hdead
  | context row invalidated hkept => exact hkept hdead

/-- A browser session has the source that it has, or is gone. -/
theorem Becomes.source {c c' : Cell} {source : String} (h : Becomes c c')
    (hsource : c = .deleted ∨ ∃ row, c = .row (.browser row) ∧ row.source = source) :
    c' = .deleted ∨ ∃ row, c' = .row (.browser row) ∧ row.source = source := by
  rcases hsource with rfl | ⟨row, rfl, hsource⟩
  · cases h
  · cases h with
    | deleted => exact .inl rfl
    | renewed | ended => exact .inr ⟨_, rfl, hsource⟩

theorem Becomes.deleted_stays {c c' : Cell} (h : Becomes c c') (hdeleted : c = .deleted) : c' = .deleted := by
  subst hdeleted
  cases h

/-- What one statement keeps all of them keep. -/
theorem kept {P : Cell → Prop} (hkeeps : ∀ c c', Becomes c c' → P c → P c') {c c' : Cell}
    (h : ReflTransGen Becomes c c') (hc : P c) : P c' := by
  induction h with
  | refl => exact hc
  | tail _ hlast ih => exact hkeeps _ _ hlast ih

/-- What `Live` asks for has ended. -/
inductive Lost (t : Rows) (call : Call) : Prop
  | context : (t (.context call.pageHandle)).dead = true → Lost t call
  | credential : call.browserCsrf = "" → (t (.credential call.credential)).dead = true → Lost t call
  | browser : call.browserCsrf ≠ "" → (t (.browser call.credential)).dead = true → Lost t call
  | source (row : Browser) : call.browserCsrf ≠ "" → t (.browser call.credential) = .row (.browser row) →
    (t (.credential row.source)).dead = true → Lost t call

/-- The authority of a call has ended. -/
def Ended (t : Rows) (call : Call) : Prop := t (.user call.user) = .deleted ∨ Lost t call

theorem Lost.later (h : Lost t call) (hrows : ∀ k, ReflTransGen Becomes (t k) (t' k)) : Lost t' call := by
  have hdead : ∀ {k}, (t k).dead = true → (t' k).dead = true :=
    fun {k} => kept (fun _ _ hbecomes => hbecomes.dead) (hrows k)
  cases h with
  | context hcontext => exact .context (hdead hcontext)
  | credential hcsrf hcredential => exact .credential hcsrf (hdead hcredential)
  | browser hcsrf hbrowser => exact .browser hcsrf (hdead hbrowser)
  | source row hcsrf hrow hsource =>
    rcases kept (fun _ _ hbecomes => hbecomes.source) (hrows _) (.inr ⟨row, hrow, rfl⟩) with
      hdeleted | ⟨row', hrow', hsame⟩
    · exact .browser hcsrf (by rw [hdeleted]; rfl)
    · exact .source row' hcsrf hrow' (by rw [hsame]; exact hdead hsource)

theorem Ended.later (h : Ended t call) (hrows : ∀ k, ReflTransGen Becomes (t k) (t' k)) : Ended t' call :=
  h.imp (kept (fun _ _ hbecomes => hbecomes.deleted_stays) (hrows _)) fun hlost => hlost.later hrows

theorem credential_dead {digest : String} {user : String} {c : Credential} {now : Nat}
    (hfound : t.credential digest = some c) (hserves : c.serves user now = true) :
    (t (.credential digest)).dead = false := by
  unfold Rows.credential at hfound
  split at hfound
  · cases hfound
    rename_i hcell
    simp only [Credential.serves, Bool.and_eq_true, Option.isNone_iff_eq_none] at hserves
    rw [hcell, Cell.dead, hserves.1.2]
    rfl
  · cases hfound

theorem context_dead {handle digest : String} {p : Context} {now : Nat}
    (hfound : t.context handle = some p) (hserves : p.serves call digest now = true) :
    (t (.context handle)).dead = false := by
  unfold Rows.context at hfound
  split at hfound
  · cases hfound
    rename_i hcell
    simp only [Context.serves, Bool.and_eq_true, Bool.not_eq_true'] at hserves
    rw [hcell, Cell.dead, hserves.1.2]
  · cases hfound

theorem browser_found {digest : String} {b : Browser} (hfound : t.browser digest = some b) :
    t (.browser digest) = .row (.browser b) := by
  unfold Rows.browser at hfound
  split at hfound
  · cases hfound
    assumption
  · cases hfound

/-- `Live` finds nothing for a call that has lost what it asks for. -/
theorem Lost.not_live (h : Lost t call) (now : Nat) : live secureTokenDigest t call now = false := by
  cases hlive : live secureTokenDigest t call now with
  | false => rfl
  | true =>
    exfalso
    unfold live at hlive
    split_ifs at hlive with hcsrf
    · cases hc : t.credential call.credential with
      | none => simp [hc] at hlive
      | some c =>
        cases hp : t.context call.pageHandle with
        | none => simp [hc, hp] at hlive
        | some p =>
          simp only [hc, hp, Bool.and_eq_true] at hlive
          cases h with
          | context hdead => simp [context_dead hp hlive.2] at hdead
          | credential _ hdead => simp [credential_dead hc hlive.1] at hdead
          | browser hne | source _ hne => exact hne hcsrf
    · cases hb : t.browser call.credential with
      | none => simp [hb] at hlive
      | some b =>
        cases hp : t.context call.pageHandle with
        | none => simp [hb, hp] at hlive
        | some p =>
          cases hc : t.credential b.source with
          | none => simp [hb, hp, hc] at hlive
          | some c =>
            simp only [hb, hp, hc, Bool.and_eq_true] at hlive
            have hcell := browser_found hb
            cases h with
            | context hdead => simp [context_dead hp hlive.2] at hdead
            | credential heq => exact hcsrf heq
            | browser _ hdead =>
              have hserves := hlive.1.1
              simp only [Browser.serves, Bool.and_eq_true, Option.isNone_iff_eq_none] at hserves
              rw [hcell, Cell.dead, hserves.1.1.2] at hdead
              cases hdead
            | source row _ hrow hdead =>
              rw [hcell] at hrow
              cases hrow
              simp [credential_dead hc hlive.1.2] at hdead

theorem activeUser_found {id : String} {now : Nat} (h : activeUser t id now = true) : t (.user id) ≠ .deleted := by
  intro hdeleted
  rw [activeUser, Rows.user, hdeleted] at h
  cases h

/-- Every step changes the committed rows only as statements may. -/
theorem Step.rows (h : Inv secureTokenDigest s) (hstep : Step secureTokenDigest s s') (k : Key) :
    ReflTransGen Becomes (s.store.rows k) (s'.store.rows k) := by
  cases hstep with
  | body i store hpc hmove hsame => exact hmove.follows h.locks k
  | lockUser i call store _ _ _ _ hstore | locked i call _ _ store _ _ _ _ _ _ hstore | rollback i store hstore =>
    subst hstore
    exact .refl
  | commit i => exact h.locks.view_follows i k
  | _ => exact .refl

/-- **What is revoked stays revoked, at once.** When the credential of a call, its browser session or the credential
that this was started with, its page context or its user has been revoked, invalidated or deleted, no connection ever
commits for the call again. -/
theorem ended_never_commits (h : Reached secureTokenDigest s) {call : Call} (hended : Ended s.store.rows call)
    {t : State ι} (hrun : ReflTransGen (Step secureTokenDigest) s t) (hcall : (t.connections i).call = some call) :
    ¬ t.MayCommit i := by
  have hlater : Reached secureTokenDigest t ∧ Ended t.store.rows call := by
    clear hcall
    induction hrun with
    | refl => exact ⟨h, hended⟩
    | tail _ hlast ih => exact ⟨ih.1.step hlast, ih.2.later fun k => hlast.rows ih.1.inv k⟩
  obtain ⟨hreached, hended⟩ := hlater
  intro hmay
  obtain ⟨⟨now, -, -, hlive⟩, today, -, -, hactive⟩ := hreached.inv.authorized hcall hmay
  have hstep : Step secureTokenDigest t (t.commit i) := .commit i hmay
  rcases hended with hdeleted | hlost
  · exact activeUser_found hactive hdeleted
  · rw [(hlost.later fun k => hstep.rows hreached.inv k).not_live] at hlive
    cases hlive

/-- The browser session is revoked when the call has all checks but the last behind it. -/
theorem ended_never_commits_revoked : ∃ s : State Bool, (s.connections true).pc = .lockLive ∧
    ∀ t, ReflTransGen (Step id) s t → (t.connections true).call = some pageCall → ¬ t.MayCommit true := by
  have h := overtaken_reached (.ended browserRow 1 rfl)
  have hended : Ended (checked.overtaken {browserRow with revokedAt := some 1}).store.rows pageCall :=
    .inr (.browser (by decide) (by decide))
  exact ⟨_, rfl, fun t hrun hcall => ended_never_commits h hended hrun hcall⟩

end Agiru.Authority
