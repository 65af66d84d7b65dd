import Agiru.BrowserSession.Storage

/-! What the locks of the calls guard, in every run: a row that is replaced is a committed one that
was not revoked, no two calls replace one row or serve one user, and a rotation that was committed
has revoked the session that it replaced. -/
namespace Agiru.BrowserSession
open Keyed Undo

variable {n : Nat} {credentials : String → Option Credential} {options : Options} {s t : State n}
  {i : Fin n}
variable {row : Row}

/-! ### Versions of a row -/

/-- A replacement that a call has not committed yet. -/
structure Follows (old new : Row) : Prop where
  digest : new.digest = old.digest
  source : new.source = old.source
  user : new.user = old.user
  expiresAt : new.expiresAt = old.expiresAt
  unrevoked : old.revokedAt = none

/-- What stays of a committed row. -/
structure Stays (old new : Row) : Prop where
  digest : new.digest = old.digest
  source : new.source = old.source
  user : new.user = old.user
  expiresAt : new.expiresAt = old.expiresAt
  revoked : old.revokedAt ≠ none → new.revokedAt ≠ none

theorem Stays.refl (row : Row) : Stays row row := ⟨rfl, rfl, rfl, rfl, id⟩

theorem Stays.trans {a b c : Row} (h : Stays a b) (h' : Stays b c) : Stays a c :=
  ⟨h'.digest.trans h.digest, h'.source.trans h.source, h'.user.trans h.user,
    h'.expiresAt.trans h.expiresAt, fun hrevoked => h'.revoked (h.revoked hrevoked)⟩

theorem Follows.stays {old new : Row} (h : Follows old new) : Stays old new :=
  ⟨h.digest, h.source, h.user, h.expiresAt, fun hrevoked => absurd h.unrevoked hrevoked⟩

theorem live_unrevoked {now : Nat} (h : live credentials row now = true) : row.revokedAt = none := by
  simp only [live, Bool.and_eq_true] at h
  simpa using h.1.1.1

theorem selects_unrevoked {operation : Operation} {now : Nat}
    (h : operation.selects credentials row now = true) : row.revokedAt = none := by
  cases operation with
  | issue => cases h
  | renew identity | rotate identity grant =>
    exact live_unrevoked (Bool.and_eq_true_iff.mp h).2
  | revoke verifier => exact Option.isNone_iff_eq_none.mp h

theorem sets_follows {operation : Operation} {now : Nat}
    (h : operation.selects credentials row now = true) (at' : Nat) :
    Follows row (operation.sets credentials row at') := by
  have hunrevoked := selects_unrevoked h
  cases operation <;> exact ⟨rfl, rfl, rfl, rfl, hunrevoked⟩

/-! ### Calls -/

/-- The session expires with its credential. -/
def Capped (credentials : String → Option Credential) (row : Row) : Prop :=
  ∃ c, credentials row.source = some c ∧ row.expiresAt ≤ c.expiresAt

/-- A new row and the call that inserts it. -/
structure Inserts (credentials : String → Option Credential) (call : Call) (new : Row) : Prop where
  admitted : call.admitted = some new.user
  capped : Capped credentials new
  rotated : ∀ old, call.updated = some old → new.user = old.user ∧ new.source = old.source ∧
    new.expiresAt ≤ old.expiresAt ∧ old.revokedAt ≠ none

/-- No row is held yet. -/
structure Unwritten (call : Call) : Prop where
  updated : call.updated = none
  inserted : call.inserted = none

/-- What a call holds before its next statement. -/
def Call.Holds (credentials : String → Option Credential) (call : Call) : Prop :=
  match call.pc with
  | .idle | .admission _ => Unwritten call ∧ call.admitted = none
  | .snapshot _ user _ | .population _ user _ _ _ | .insert _ user _ =>
    Unwritten call ∧ call.admitted = some user
  | .update operation => Unwritten call ∧ call.admitted = operation.admission
  | .wait operation _ old => Unwritten call ∧ call.admitted = operation.admission ∧
    ∃ at', operation.selects credentials old at' = true
  | .successor identity _ old => call.inserted = none ∧ call.admitted = some identity.user ∧
    old.user = identity.user ∧ ∃ at', call.updated = some {old with revokedAt := some at'}
  | .commit => True

/-- What the calls of others leave to a call. -/
structure Apart (s : State n) (i : Fin n) (call : Call) : Prop where
  admitted : ∀ user, call.admitted = some user → ∀ j, j ≠ i → (s.calls j).admitted ≠ some user
  follows : ∀ new, call.updated = some new → ∃ old ∈ s.rows, Follows old new
  updated : ∀ new, call.updated = some new → s.RowFree i new.digest
  fresh : ∀ new, call.inserted = some new → ∀ row ∈ s.rows, row.digest ≠ new.digest
  inserted : ∀ new, call.inserted = some new → ∀ j, j ≠ i → ∀ row, (s.calls j).inserted = some row →
    row.digest ≠ new.digest

/-- A rotation that was committed. -/
structure Link (rows : List Row) (old new : Row) : Prop where
  old_mem : old ∈ rows
  new_mem : new ∈ rows
  revoked : old.revokedAt ≠ none
  source : new.source = old.source
  user : new.user = old.user
  expiresAt : new.expiresAt ≤ old.expiresAt

/-- The invariant of all runs. -/
structure Inv (credentials : String → Option Credential) (s : State n) : Prop where
  keys : (s.rows.map Row.digest).Nodup
  capped : ∀ row ∈ s.rows, Capped credentials row
  holds : ∀ i, (s.calls i).Holds credentials
  inserts : ∀ i new, (s.calls i).inserted = some new → Inserts credentials (s.calls i) new
  apart : ∀ i, Apart s i (s.calls i)
  links : ∀ pair ∈ s.rotations, ∃ old new, Link s.rows old new ∧ pair = (old.digest, new.digest)
  once : (s.rotations.map Prod.fst).Nodup

theorem Inv.start (clock : Nat) : Inv credentials ({clock} : State n) where
  keys := .nil
  capped := nofun
  holds _ := ⟨⟨rfl, rfl⟩, rfl⟩
  inserts := nofun
  apart _ := ⟨nofun, nofun, nofun, nofun, nofun⟩
  links := nofun
  once := .nil

/-! ### Statements before the end of a call -/

@[simp] theorem put_self (call : Call) : (s.put i call).calls i = call := Function.update_self ..

theorem put_other (call : Call) {j : Fin n} (hj : j ≠ i) : (s.put i call).calls j = s.calls j :=
  Function.update_of_ne hj ..

/-- A call goes on. -/
theorem Inv.put (h : Inv credentials s) {call : Call} (hholds : call.Holds credentials)
    (hinserts : ∀ new, call.inserted = some new → Inserts credentials call new)
    (hapart : Apart s i call) : Inv credentials (s.put i call) where
  keys := h.keys
  capped := h.capped
  holds j := by
    by_cases hj : j = i
    · subst hj
      rw [put_self]
      exact hholds
    · rw [put_other call hj]
      exact h.holds j
  inserts j := by
    by_cases hj : j = i
    · subst hj
      rw [put_self]
      exact hinserts
    · rw [put_other call hj]
      exact h.inserts j
  apart j := by
    by_cases hj : j = i
    · subst hj
      rw [put_self]
      refine ⟨fun user huser k hk => ?_, hapart.follows, fun new hnew k hk row hrow => ?_, hapart.fresh,
        fun new hnew k hk row hrow => ?_⟩
      · rw [put_other call hk]
        exact hapart.admitted user huser k hk
      · rw [put_other call hk] at hrow
        exact hapart.updated new hnew k hk row hrow
      · rw [put_other call hk] at hrow
        exact hapart.inserted new hnew k hk row hrow
    · rw [put_other call hj]
      have hother := h.apart j
      refine ⟨fun user huser k hk => ?_, hother.follows, fun new hnew k hk row hrow => ?_, hother.fresh,
        fun new hnew k hk row hrow => ?_⟩
      · by_cases hki : k = i
        · subst hki
          rw [put_self]
          exact fun hmine => hapart.admitted user hmine j hj huser
        · rw [put_other call hki]
          exact hother.admitted user huser k hk
      · by_cases hki : k = i
        · subst hki
          rw [put_self] at hrow
          exact (hapart.updated row hrow j hj new hnew).symm
        · rw [put_other call hki] at hrow
          exact hother.updated new hnew k hk row hrow
      · by_cases hki : k = i
        · subst hki
          rw [put_self] at hrow
          exact (hapart.inserted row hrow j hj new hnew).symm
        · rw [put_other call hki] at hrow
          exact hother.inserted new hnew k hk row hrow
  links := h.links
  once := h.once

/-- A call that holds nothing is apart from the others. -/
theorem Apart.empty {pc : Pc} : Apart s i {pc} := ⟨nofun, nofun, nofun, nofun, nofun⟩

/-- The next statement of a call that holds what it held. -/
theorem Inv.next (h : Inv credentials s) {pc : Pc}
    (hholds : Call.Holds credentials {s.calls i with pc}) :
    Inv credentials (s.put i {s.calls i with pc}) := by
  have hapart := h.apart i
  refine h.put hholds (fun new hnew => ?_) ?_
  · have hinserts := h.inserts i new hnew
    exact ⟨hinserts.admitted, hinserts.capped, hinserts.rotated⟩
  · exact ⟨hapart.admitted, hapart.follows, hapart.updated, hapart.fresh, hapart.inserted⟩

/-! ### The end of a call -/

theorem mem_commit (h : row ∈ (s.commit i).rows) :
    (row ∈ s.rows ∧ ∀ new, (s.calls i).updated = some new → row.digest ≠ new.digest) ∨
      ((s.calls i).updated = some row ∧ ∃ old ∈ s.rows, old.digest = row.digest) ∨
      (s.calls i).inserted = some row := by
  rcases List.mem_append.mp h with h | h
  · cases hupdated : (s.calls i).updated with
    | none =>
      rw [hupdated] at h
      exact .inl ⟨h, nofun⟩
    | some new =>
      rw [hupdated] at h
      rcases mem_replace h with ⟨rfl, hold⟩ | ⟨hrow, hne⟩
      · exact .inr (.inl ⟨rfl, hold⟩)
      · refine .inl ⟨hrow, ?_⟩
        rintro new' ⟨⟩
        exact hne
  · exact .inr (.inr (Option.mem_toList.mp h))

theorem mem_commit_inserted {new : Row} (h : (s.calls i).inserted = some new) :
    new ∈ (s.commit i).rows := by
  refine List.mem_append_right _ ?_
  rw [h]
  exact List.mem_singleton_self new

theorem mem_commit_updated {old new : Row} (h : (s.calls i).updated = some new) (hold : old ∈ s.rows)
    (hdigest : old.digest = new.digest) : new ∈ (s.commit i).rows := by
  refine List.mem_append_left _ ?_
  rw [h]
  exact mem_replace_self hold hdigest

theorem mem_commit_other (hrow : row ∈ s.rows)
    (h : ∀ new, (s.calls i).updated = some new → row.digest ≠ new.digest) :
    row ∈ (s.commit i).rows := by
  refine List.mem_append_left _ ?_
  cases hupdated : (s.calls i).updated with
  | none => exact hrow
  | some new => exact mem_replace_other hrow (h new hupdated)

theorem commit_other {j : Fin n} (hj : j ≠ i) : (s.commit i).calls j = s.calls j :=
  Function.update_of_ne hj ..

@[simp] theorem commit_self : (s.commit i).calls i = {} := Function.update_self ..

/-- The committed row that a call replaces. -/
theorem Inv.replaced (h : Inv credentials s) {new : Row} (hnew : (s.calls i).updated = some new)
    (hrow : row ∈ s.rows) (hdigest : row.digest = new.digest) : Follows row new := by
  obtain ⟨old, hold, hfollows⟩ := (h.apart i).follows new hnew
  have heq : old = row :=
    List.inj_on_of_nodup_map h.keys hold hrow (hfollows.digest.symm.trans hdigest.symm)
  rw [← heq]
  exact hfollows

/-- A committed row stays, in its newest version. -/
theorem Inv.stays (h : Inv credentials s) (hrow : row ∈ s.rows) : ∃ new ∈ (s.commit i).rows, Stays row new := by
  by_cases hmine : ∃ new, (s.calls i).updated = some new ∧ row.digest = new.digest
  · obtain ⟨new, hnew, hdigest⟩ := hmine
    exact ⟨new, mem_commit_updated hnew hrow hdigest, (h.replaced hnew hrow hdigest).stays⟩
  · exact ⟨row, mem_commit_other hrow fun new hnew hdigest => hmine ⟨new, hnew, hdigest⟩, .refl row⟩

theorem Inv.commit_keys (h : Inv credentials s) : ((s.commit i).rows.map Row.digest).Nodup := by
  have hkeys : ((s.calls i).updated.elim s.rows (replace Row.digest s.rows)).map Row.digest =
      s.rows.map Row.digest := by
    cases (s.calls i).updated with
    | none => rfl
    | some new => exact keys_replace
  show (List.map Row.digest (_ ++ _)).Nodup
  rw [List.map_append, hkeys, List.nodup_append]
  refine ⟨h.keys, ?_, ?_⟩
  · cases (s.calls i).inserted <;> simp
  · intro digest hdigest digest' hdigest'
    obtain ⟨row, hrow, rfl⟩ := List.mem_map.mp hdigest
    obtain ⟨new, hnew, rfl⟩ := List.mem_map.mp hdigest'
    exact (h.apart i).fresh new (Option.mem_toList.mp hnew) row hrow

theorem Link.stays {rows rows' : List Row} {old new : Row} (h : Link rows old new)
    (hstays : ∀ row ∈ rows, ∃ row' ∈ rows', Stays row row') :
    ∃ old' new', Link rows' old' new' ∧ old'.digest = old.digest ∧ new'.digest = new.digest := by
  obtain ⟨old', hold', hold⟩ := hstays old h.old_mem
  obtain ⟨new', hnew', hnew⟩ := hstays new h.new_mem
  refine ⟨old', new', ⟨hold', hnew', hold.revoked h.revoked, ?_, ?_, ?_⟩, hold.digest, hnew.digest⟩
  · rw [hnew.source, hold.source, h.source]
  · rw [hnew.user, hold.user, h.user]
  · rw [hnew.expiresAt, hold.expiresAt]
    exact h.expiresAt

theorem Inv.commit_apart (h : Inv credentials s) (j : Fin n) :
    Apart (s.commit i) j ((s.commit i).calls j) := by
  by_cases hj : j = i
  · subst hj
    rw [commit_self]
    exact .empty
  rw [commit_other hj]
  have hother := h.apart j
  refine ⟨fun user huser k hk => ?_, fun new hnew => ?_, fun new hnew k hk row hrow => ?_,
    fun new hnew row hrow => ?_, fun new hnew k hk row hrow => ?_⟩
  · by_cases hki : k = i
    · subst hki
      rw [commit_self]
      nofun
    · rw [commit_other hki]
      exact hother.admitted user huser k hk
  · obtain ⟨old, hold, hfollows⟩ := hother.follows new hnew
    refine ⟨old, mem_commit_other hold fun mine hmine => ?_, hfollows⟩
    rw [← hfollows.digest]
    exact (hother.updated new hnew i (Ne.symm hj) mine hmine).symm
  · by_cases hki : k = i
    · subst hki
      rw [commit_self] at hrow
      cases hrow
    · rw [commit_other hki] at hrow
      exact hother.updated new hnew k hk row hrow
  · rcases mem_commit hrow with ⟨hrow, -⟩ | ⟨-, old, hold, hdigest⟩ | hmine
    · exact hother.fresh new hnew row hrow
    · rw [← hdigest]
      exact hother.fresh new hnew old hold
    · exact hother.inserted new hnew i (Ne.symm hj) row hmine
  · by_cases hki : k = i
    · subst hki
      rw [commit_self] at hrow
      cases hrow
    · rw [commit_other hki] at hrow
      exact hother.inserted new hnew k hk row hrow

theorem commit_rotations : (s.commit i).rotations = s.rotations ∨ ∃ old new,
    (s.calls i).updated = some old ∧ (s.calls i).inserted = some new ∧
      (s.commit i).rotations = (old.digest, new.digest) :: s.rotations := by
  cases hupdated : (s.calls i).updated with
  | none => exact .inl (by simp [State.commit, hupdated, State.put])
  | some old =>
    cases hinserted : (s.calls i).inserted with
    | none => exact .inl (by simp [State.commit, hupdated, hinserted, State.put])
    | some new =>
      exact .inr ⟨old, new, rfl, rfl, by simp [State.commit, hupdated, hinserted, State.put]⟩

theorem Inv.commit (h : Inv credentials s) : Inv credentials (s.commit i) where
  keys := h.commit_keys
  capped row hrow := by
    rcases mem_commit hrow with ⟨hrow, -⟩ | ⟨hupdated, old, hold, hdigest⟩ | hinserted
    · exact h.capped row hrow
    · have hfollows := h.replaced hupdated hold hdigest
      obtain ⟨c, hc, hle⟩ := h.capped old hold
      exact ⟨c, by rw [hfollows.source, hc], by rw [hfollows.expiresAt]; exact hle⟩
    · exact (h.inserts i row hinserted).capped
  holds j := by
    by_cases hj : j = i
    · subst hj
      rw [commit_self]
      exact ⟨⟨rfl, rfl⟩, rfl⟩
    · rw [commit_other hj]
      exact h.holds j
  inserts j := by
    by_cases hj : j = i
    · subst hj
      rw [commit_self]
      nofun
    · rw [commit_other hj]
      exact h.inserts j
  apart := h.commit_apart
  links pair hpair := by
    have hkept : ∀ pair ∈ s.rotations,
        ∃ old new, Link (s.commit i).rows old new ∧ pair = (old.digest, new.digest) := by
      intro pair hpair
      obtain ⟨old, new, hlink, rfl⟩ := h.links pair hpair
      obtain ⟨old', new', hlink', hold, hnew⟩ := hlink.stays fun row hrow => h.stays (i := i) hrow
      exact ⟨old', new', hlink', by rw [hold, hnew]⟩
    rcases commit_rotations (s := s) (i := i) with heq | ⟨old, new, hold, hnew, heq⟩
    · exact hkept pair (heq ▸ hpair)
    · rw [heq] at hpair
      rcases List.mem_cons.mp hpair with rfl | hpair
      · obtain ⟨committed, hcommitted, hfollows⟩ := (h.apart i).follows old hold
        obtain ⟨huser, hsource, hexpires, hrevoked⟩ := (h.inserts i new hnew).rotated old hold
        exact ⟨old, new, ⟨mem_commit_updated hold hcommitted hfollows.digest.symm,
          mem_commit_inserted hnew, hrevoked, hsource, huser, hexpires⟩, rfl⟩
      · exact hkept pair hpair
  once := by
    rcases commit_rotations (s := s) (i := i) with heq | ⟨old, new, hold, hnew, heq⟩
    · rw [heq]
      exact h.once
    · rw [heq]
      refine List.nodup_cons.mpr ⟨fun hmem => ?_, h.once⟩
      obtain ⟨pair, hpair, hfirst⟩ := List.mem_map.mp hmem
      obtain ⟨old', new', hlink, rfl⟩ := h.links pair hpair
      exact hlink.revoked (h.replaced hold hlink.old_mem hfirst).unrevoked

/-! ### Every statement -/

theorem Inv.step (h : Inv credentials s) (hstep : Step credentials options s t) :
    Inv credentials t := by
  cases hstep with
  | time now hnow => exact ⟨h.keys, h.capped, h.holds, h.inserts, fun i => ⟨(h.apart i).admitted,
      (h.apart i).follows, (h.apart i).updated, (h.apart i).fresh, (h.apart i).inserted⟩, h.links, h.once⟩
  | call i operation hpc =>
    refine h.put ?_ nofun .empty
    unfold Operation.first
    cases operation <;> exact ⟨⟨rfl, rfl⟩, rfl⟩
  | admission i operation hpc hfree =>
    refine h.put ?_ nofun ⟨fun user huser j hj hother => ?_, nofun, nofun, nofun, nofun⟩
    · cases operation <;> exact ⟨⟨rfl, rfl⟩, rfl⟩
    · exact hfree j hj (hother.trans huser.symm)
  | snapshot i source user grant hpc | judge i source user grant row rest count hpc
  | below i source user grant count hpc hbelow =>
    have hholds := h.holds i
    rw [Call.Holds, hpc] at hholds
    exact h.next ⟨⟨hholds.1.updated, hholds.1.inserted⟩, hholds.2⟩
  | insert i source user grant c hpc hc huser hunrevoked hexpires hfresh =>
    have hholds := h.holds i
    rw [Call.Holds, hpc] at hholds
    obtain ⟨hunwritten, hadmitted⟩ := hholds
    have hapart := h.apart i
    refine h.put trivial ?_ ⟨hapart.admitted, hapart.follows, hapart.updated, ?_, ?_⟩
    · rintro new ⟨⟩
      refine ⟨hadmitted.trans (congrArg some huser.symm), ⟨c, hc, Nat.min_le_left ..⟩, ?_⟩
      exact fun old hold => absurd (hold.symm.trans hunwritten.updated) nofun
    · rintro new ⟨⟩
      exact hfresh.1
    · rintro new ⟨⟩ j hj row hrow
      exact hfresh.2 j row hrow
  | read i operation row hpc hrow htarget hselects =>
    have hholds := h.holds i
    rw [Call.Holds, hpc] at hholds
    exact h.next ⟨⟨hholds.1.updated, hholds.1.inserted⟩, hholds.2, s.clock, hselects⟩
  | reread i operation began old row hpc hfree hold hrow hdigest hselects =>
    have hholds := h.holds i
    rw [Call.Holds, hpc] at hholds
    exact h.next ⟨⟨hholds.1.updated, hholds.1.inserted⟩, hholds.2.1, s.clock, hselects⟩
  | lock i operation began old at' hpc hfree hold hbegan hat =>
    have hholds := h.holds i
    rw [Call.Holds, hpc] at hholds
    obtain ⟨hunwritten, hadmitted, judged, hselects⟩ := hholds
    have hapart := h.apart i
    have hfollows := sets_follows hselects at'
    refine h.put ?_ ?_ ⟨hapart.admitted, ?_, ?_, hapart.fresh, hapart.inserted⟩
    · cases operation with
      | rotate identity grant =>
        refine ⟨hunwritten.inserted, hadmitted, ?_, at', rfl⟩
        simp only [Operation.selects, Bool.and_eq_true, decide_eq_true_eq] at hselects
        exact hselects.1.1
      | _ => trivial
    · exact fun new hnew => absurd (hnew.symm.trans hunwritten.inserted) nofun
    · rintro new ⟨⟩
      exact ⟨old, hold, hfollows⟩
    · rintro new ⟨⟩
      rw [hfollows.digest]
      exact hfree
  | successor i identity grant old c at' hpc hc hat hfresh hcheck =>
    have hholds := h.holds i
    rw [Call.Holds, hpc] at hholds
    obtain ⟨hnone, hadmitted, huser, revokedAt, hupdated⟩ := hholds
    have hapart := h.apart i
    refine h.put trivial ?_ ⟨hapart.admitted, hapart.follows, hapart.updated, ?_, ?_⟩
    · rintro new ⟨⟩
      refine ⟨hadmitted.trans (congrArg some huser.symm), ⟨c, hc, Nat.min_le_right ..⟩, ?_⟩
      intro replaced hreplaced
      obtain rfl : {old with revokedAt := some revokedAt} = replaced :=
        Option.some.inj (hupdated.symm.trans hreplaced)
      exact ⟨rfl, rfl, Nat.min_le_left .., nofun⟩
    · rintro new ⟨⟩
      exact hfresh.1
    · rintro new ⟨⟩ j hj row hrow
      exact hfresh.2 j row hrow
  | commit i hpc => exact h.commit
  | rollback i => exact h.put ⟨⟨rfl, rfl⟩, rfl⟩ nofun .empty

theorem Reached.inv (h : Reached credentials options s) : Inv credentials s :=
  Reachable.invariant (fun _ ⟨clock, heq⟩ => heq ▸ Inv.start clock) (fun _ _ hs hstep => hs.step hstep) h

end Agiru.BrowserSession
