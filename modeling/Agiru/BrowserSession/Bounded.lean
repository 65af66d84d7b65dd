import Agiru.BrowserSession.Locked

/-! How many sessions of a user are live.

An admitted call that will insert a session has a place reserved for it: an issue, because the count
was below the limit, and a rotation, because it replaces a live session. The locks keep a second
call from taking the place. That needs the renewals to be timely: none may be committed after the
idle expiry of the version that it replaces, or behind the snapshot of a count. -/
namespace Agiru.BrowserSession
open Keyed Undo

variable {n : Nat} {credentials : String → Option Credential} {options : Options} {s t : State n}
  {i : Fin n}
variable {user : String}
variable {row : Row} {now : Nat}

/-- A step in which no renewal is late: what it commits replaces a version that is not past its idle
expiry, and no count judges a session dead by a version that a renewal has replaced. -/
structure TimelyStep (credentials : String → Option Credential) (options : Options)
    (s t : State n) : Prop where
  step : Step credentials options s t
  commit : ∀ i new, (s.calls i).pc = .commit → t = s.commit i → (s.calls i).updated = some new →
    new.revokedAt = none → ∀ old ∈ s.rows, old.digest = new.digest → s.clock < old.idleExpiresAt
  judge : ∀ i source user grant row rest count count',
    (s.calls i).pc = .population source user grant (row :: rest) count →
    (t.calls i).pc = .population source user grant rest count' →
    live credentials row s.clock = false →
    ∀ newest ∈ s.rows, newest.digest = row.digest → newest = row ∨ newest.revokedAt ≠ none

/-- The sessions of a user that are live, of those with such digests. -/
def liveCount (credentials : String → Option Credential) (s : State n) (user : String)
    (p : String → Bool) : Nat :=
  s.rows.countP fun row => (decide (row.user = user) && live credentials row s.clock) && p row.digest

/-- A place for a session, besides the live ones of such digests. -/
inductive Reserves (call : Call) : String → (String → Bool) → Prop
  | insert (source user : String) (grant : Grant) : call.pc = .insert source user grant →
    Reserves call user fun _ => true
  | wait (identity : Identity) (grant : Grant) (began : Nat) (old : Row) :
    call.pc = .wait (.rotate identity grant) began old →
    Reserves call identity.user fun digest => decide (digest ≠ old.digest)
  | successor (identity : Identity) (grant : Grant) (old : Row) :
    call.pc = .successor identity grant old →
    Reserves call identity.user fun digest => decide (digest ≠ old.digest)
  | commit (new : Row) : call.pc = .commit → call.inserted = some new →
    Reserves call new.user fun digest => call.updated.all fun old => decide (digest ≠ old.digest)

structure Bounded (credentials : String → Option Credential) (options : Options) (s : State n) :
    Prop where
  limit : ∀ user, liveCount credentials s user (fun _ => true) ≤ options.sessionsPerUser
  counted : ∀ i source user grant rest count, (s.calls i).pc = .population source user grant rest count →
    liveCount credentials s user (fun digest => decide (digest ∉ rest.map Row.digest)) ≤ count
  reserved : ∀ i user p, Reserves (s.calls i) user p →
    liveCount credentials s user p < options.sessionsPerUser

/-! ### Liveness -/

theorem live_iff : live credentials row now = true ↔
    row.revokedAt = none ∧ now < row.expiresAt ∧ now < row.idleExpiresAt ∧
      ∃ c, credentials row.source = some c ∧ c.revokedAt = none ∧ now < c.expiresAt ∧
        c.user = row.user := by
  unfold live
  cases credentials row.source <;> simp [and_assoc]

theorem live_mono {now' : Nat} (hnow : now ≤ now')
    (h : live credentials row now' = true) : live credentials row now = true := by
  obtain ⟨hrevoked, hexpires, hidle, c, hc, hcrevoked, hcexpires, huser⟩ := live_iff.mp h
  exact live_iff.mpr ⟨hrevoked, by omega, by omega, c, hc, hcrevoked, by omega, huser⟩

/-- A version that is live replaces one that was, if that one is not past its idle expiry. -/
theorem live_follows {old new : Row} (h : Follows old new) (hidle : now < old.idleExpiresAt)
    (hlive : live credentials new now = true) : live credentials old now = true := by
  obtain ⟨-, hexpires, -, c, hc, hcrevoked, hcexpires, huser⟩ := live_iff.mp hlive
  refine live_iff.mpr ⟨h.unrevoked, ?_, hidle, c, ?_, hcrevoked, hcexpires, ?_⟩
  · rw [← h.expiresAt]
    exact hexpires
  · rw [← h.source, hc]
  · rw [huser, h.user]

theorem liveCount_mono {p q : String → Bool} (h : ∀ digest, p digest = true → q digest = true) :
    liveCount credentials s user p ≤ liveCount credentials s user q := by
  refine List.countP_mono_left fun row _ hrow => ?_
  rw [Bool.and_eq_true] at hrow ⊢
  exact ⟨hrow.1, h _ hrow.2⟩

theorem liveCount_time (hnow : s.clock ≤ now) (user : String) (p : String → Bool) :
    liveCount credentials {s with clock := now} user p ≤ liveCount credentials s user p := by
  refine List.countP_mono_left fun row _ hrow => ?_
  simp only [Bool.and_eq_true] at hrow ⊢
  exact ⟨⟨hrow.1.1, live_mono hnow hrow.1.2⟩, hrow.2⟩

/-- A live session, left out. -/
theorem liveCount_others (hrow : row ∈ s.rows) (huser : row.user = user)
    (hlive : live credentials row s.clock = true) :
    liveCount credentials s user (fun digest => decide (digest ≠ row.digest)) <
      liveCount credentials s user fun _ => true := by
  have hcounts : (decide (row.user = user) && live credentials row s.clock) = true := by
    simp [huser, hlive]
  have hlt : s.rows.countP (fun other => (decide (other.user = user) &&
      live credentials other s.clock) && decide (other.digest ≠ row.digest)) < _ :=
    countP_others_lt hrow hcounts
  simpa only [liveCount, Bool.and_true] using hlt

/-! ### Statements before the end of a call -/

theorem Bounded.put (h : Bounded credentials options s) {call : Call}
    (hcounted : ∀ source user grant rest count, call.pc = .population source user grant rest count →
      liveCount credentials s user (fun digest => decide (digest ∉ rest.map Row.digest)) ≤ count)
    (hreserved : ∀ user p, Reserves call user p →
      liveCount credentials s user p < options.sessionsPerUser) :
    Bounded credentials options (s.put i call) where
  limit := h.limit
  counted j := by
    by_cases hj : j = i
    · subst hj
      rw [put_self]
      exact hcounted
    · rw [put_other call hj]
      exact h.counted j
  reserved j := by
    by_cases hj : j = i
    · subst hj
      rw [put_self]
      exact hreserved
    · rw [put_other call hj]
      exact h.reserved j

/-- Who has a place reserved is admitted for the user. -/
theorem Inv.reserves (h : Inv credentials s) {p : String → Bool}
    (hreserves : Reserves (s.calls i) user p) : (s.calls i).admitted = some user := by
  have hholds := h.holds i
  cases hreserves with
  | insert source user grant hpc =>
    rw [Call.Holds, hpc] at hholds
    exact hholds.2
  | wait identity grant began old hpc | successor identity grant old hpc =>
    rw [Call.Holds, hpc] at hholds
    exact hholds.2.1
  | commit new hpc hnew => exact (h.inserts i new hnew).admitted

theorem Inv.counting (h : Inv credentials s) {source : String} {grant : Grant} {rest : List Row}
    {count : Nat} (hpc : (s.calls i).pc = .population source user grant rest count) :
    (s.calls i).admitted = some user := by
  have hholds := h.holds i
  rw [Call.Holds, hpc] at hholds
  exact hholds.2

/-! ### The end of a call -/

/-- The rows after the update of a call. -/
def updatedRows (s : State n) (i : Fin n) : List Row :=
  (s.calls i).updated.elim s.rows (replace Row.digest s.rows)

/-- The count over such rows. -/
def countIn (credentials : String → Option Credential) (now : Nat) (user : String)
    (p : String → Bool) (rows : List Row) : Nat :=
  rows.countP fun row => (decide (row.user = user) && live credentials row now) && p row.digest

theorem liveCount_commit (user : String) (p : String → Bool) :
    liveCount credentials (s.commit i) user p =
      countIn credentials s.clock user p (updatedRows s i) +
        countIn credentials s.clock user p (s.calls i).inserted.toList :=
  List.countP_append

/-- What a timely update commits is live only where its old version was. -/
theorem Inv.replaced_le (h : Inv credentials s)
    (htimely : ∀ new, (s.calls i).updated = some new → new.revokedAt = none →
      ∀ old ∈ s.rows, old.digest = new.digest → s.clock < old.idleExpiresAt)
    (user : String) (p : String → Bool) :
    countIn credentials s.clock user p (updatedRows s i) ≤ liveCount credentials s user p := by
  unfold updatedRows
  cases hupdated : (s.calls i).updated with
  | none => exact Nat.le_refl _
  | some new =>
    refine countP_replace_le fun old hold hdigest hnew => ?_
    simp only [Bool.and_eq_true, decide_eq_true_eq] at hnew ⊢
    obtain ⟨⟨huser, hlive⟩, hp⟩ := hnew
    have hfollows := h.replaced hupdated hold hdigest
    have hidle := htimely new hupdated (live_unrevoked hlive) old hold hdigest
    exact ⟨⟨hfollows.user.symm.trans huser, live_follows hfollows hidle hlive⟩, hdigest ▸ hp⟩

/-- Nor is what a rotation has revoked. -/
theorem replaced_le_reserved
    (hrevoked : ∀ old, (s.calls i).updated = some old → old.revokedAt ≠ none) (user : String) :
    countIn credentials s.clock user (fun _ => true) (updatedRows s i) ≤
      liveCount credentials s user fun digest =>
        (s.calls i).updated.all fun old => decide (digest ≠ old.digest) := by
  unfold updatedRows
  cases hupdated : (s.calls i).updated with
  | none => exact Nat.le_refl _
  | some new =>
    have hothers : countIn credentials s.clock user (fun _ => true) (replace Row.digest s.rows new) ≤
        countIn credentials s.clock user (fun digest => decide (digest ≠ new.digest))
          (replace Row.digest s.rows new) := by
      refine List.countP_mono_left fun row hrow hcounts => ?_
      rw [Bool.and_true] at hcounts
      rw [hcounts, Bool.true_and, decide_eq_true_eq]
      rcases mem_replace hrow with ⟨rfl, -⟩ | ⟨-, hne⟩
      · exact absurd (live_unrevoked (Bool.and_eq_true_iff.mp hcounts).2) (hrevoked row hupdated)
      · exact hne
    refine Nat.le_trans hothers (countP_replace_le fun old hold hdigest hnew => ?_)
    simp at hnew

theorem Bounded.commit (h : Bounded credentials options s) (hinv : Inv credentials s)
    (hpc : (s.calls i).pc = .commit)
    (htimely : ∀ new, (s.calls i).updated = some new → new.revokedAt = none →
      ∀ old ∈ s.rows, old.digest = new.digest → s.clock < old.idleExpiresAt) :
    Bounded credentials options (s.commit i) := by
  -- Whoever else counts, or has a place reserved, does so for another user.
  have hother : ∀ j, j ≠ i → ∀ user, (s.calls j).admitted = some user → ∀ p,
      liveCount credentials (s.commit i) user p ≤ liveCount credentials s user p := by
    intro j hj user hadmitted p
    have hnone : countIn credentials s.clock user p (s.calls i).inserted.toList = 0 := by
      cases hinserted : (s.calls i).inserted with
      | none => rfl
      | some new =>
        have hmine := (hinv.inserts i new hinserted).admitted
        have hne : new.user ≠ user := by
          rintro rfl
          exact (hinv.apart i).admitted _ hmine j hj hadmitted
        simp [countIn, hne]
    rw [liveCount_commit, hnone]
    exact hinv.replaced_le htimely user p
  refine ⟨fun user => ?_, fun j source user grant rest count hj => ?_, fun j user p hreserves => ?_⟩
  · rw [liveCount_commit]
    have hreplaced := hinv.replaced_le htimely user fun _ => true
    cases hinserted : (s.calls i).inserted with
    | none => exact Nat.le_trans hreplaced (h.limit user)
    | some new =>
      by_cases huser : new.user = user
      · subst huser
        have hplace := h.reserved i new.user _ (.commit new hpc hinserted)
        have hrevoked : ∀ old, (s.calls i).updated = some old → old.revokedAt ≠ none :=
          fun old hold => ((hinv.inserts i new hinserted).rotated old hold).2.2.2
        have hle : countIn credentials s.clock new.user _ _ ≤ _ :=
          replaced_le_reserved hrevoked new.user
        have hone : countIn credentials s.clock new.user (fun _ => true) (some new).toList ≤ 1 :=
          List.countP_le_length
        omega
      · have hnone : countIn credentials s.clock user (fun _ => true) (some new).toList = 0 := by
          simp [countIn, huser]
        rw [hnone]
        exact Nat.le_trans hreplaced (h.limit user)
  · by_cases hji : j = i
    · subst hji
      rw [commit_self] at hj
      cases hj
    · rw [commit_other hji] at hj
      exact Nat.le_trans (hother j hji user (hinv.counting hj) _) (h.counted j _ _ _ _ _ hj)
  · by_cases hji : j = i
    · subst hji
      rw [commit_self] at hreserves
      cases hreserves <;> contradiction
    · rw [commit_other hji] at hreserves
      exact Nat.lt_of_le_of_lt (hother j hji user (hinv.reserves hreserves) p) (h.reserved j _ _ hreserves)

/-! ### Every statement -/

/-- A call goes on that neither counts nor has a place reserved. -/
theorem Bounded.quiet (h : Bounded credentials options s) {call : Call}
    (hpc : ∀ source user grant rest count, call.pc ≠ .population source user grant rest count)
    (hreserves : ∀ user p, ¬ Reserves call user p) : Bounded credentials options (s.put i call) :=
  h.put (fun source user grant rest count hcount => absurd hcount (hpc source user grant rest count))
    fun user p hmine => absurd hmine (hreserves user p)

/-- A rotation has read its live session: what it will insert has the place of that. -/
theorem Bounded.read (h : Bounded credentials options s) {operation : Operation}
    (hrow : row ∈ s.rows) (hselects : operation.selects credentials row s.clock = true) :
    Bounded credentials options
      (s.put i {s.calls i with pc := .wait operation s.clock row}) := by
  refine h.put nofun fun user p hreserves => ?_
  cases hreserves with
  | insert source user grant hpc | successor identity grant old hpc | commit new hpc => cases hpc
  | wait identity grant began old hpc =>
    cases hpc
    simp only [Operation.selects, Bool.and_eq_true, decide_eq_true_eq] at hselects
    exact Nat.lt_of_lt_of_le (liveCount_others hrow hselects.1.1 hselects.2) (h.limit _)

theorem Bounded.step (h : Bounded credentials options s) (hinv : Inv credentials s)
    (hstep : TimelyStep credentials options s t) : Bounded credentials options t := by
  obtain ⟨hstep, hcommit, hjudge⟩ := hstep
  cases hstep with
  | time now hnow =>
    refine ⟨fun user => ?_, fun j source user grant rest count hpc => ?_, fun j user p hreserves => ?_⟩
    · exact Nat.le_trans (liveCount_time hnow user _) (h.limit user)
    · exact Nat.le_trans (liveCount_time hnow user _) (h.counted j _ _ _ _ _ hpc)
    · exact Nat.lt_of_le_of_lt (liveCount_time hnow user p) (h.reserved j user p hreserves)
  | call i operation hpc | admission i operation hpc hfree =>
    refine h.quiet (fun _ _ _ _ _ hcount => ?_) fun _ _ hreserves => ?_
    · cases operation <;> cases hcount
    · cases operation <;> cases hreserves <;> contradiction
  | snapshot i source user grant hpc =>
    refine h.put (fun source' user' grant' rest count hcount => ?_) fun _ _ hreserves => ?_
    · cases hcount
      refine Nat.le_of_eq (List.countP_eq_zero.mpr fun row hrow hcounts => ?_)
      simp only [Bool.and_eq_true, decide_eq_true_eq] at hcounts
      exact hcounts.2 (List.mem_map.mpr ⟨row, List.mem_filter.mpr ⟨hrow, by simp [hcounts.1.1]⟩, rfl⟩)
    · cases hreserves <;> contradiction
  | judge i source user grant row rest count hpc =>
    refine h.put (fun source' user' grant' rest' count' hcount => ?_) fun _ _ hreserves => ?_
    · have hdead := hjudge i source user grant row rest count _ hpc (by rw [put_self])
      cases hcount
      have hcounted := h.counted i source user grant (row :: rest) count hpc
      have hsplit : liveCount credentials s user
            (fun digest => decide (digest ∉ rest.map Row.digest)) ≤
          liveCount credentials s user
            (fun digest => decide (digest ∉ (row :: rest).map Row.digest)) + _ :=
        countP_notMem_le (fun row => decide (row.user = user) && live credentials row s.clock)
          row.digest (rest.map Row.digest)
      have hone : s.rows.countP (fun newest => (decide (newest.user = user) &&
          live credentials newest s.clock) && decide (newest.digest = row.digest)) ≤
          if live credentials row s.clock = true then 1 else 0 := by
        split
        · refine Nat.le_trans (List.countP_mono_left fun newest _ hnewest => ?_)
            (countP_key_le hinv.keys row.digest)
          exact (Bool.and_eq_true_iff.mp hnewest).2
        · next hlive =>
          rw [Bool.not_eq_true] at hlive
          refine Nat.le_of_eq (List.countP_eq_zero.mpr fun newest hnewest hcounts => ?_)
          simp only [Bool.and_eq_true, decide_eq_true_eq] at hcounts
          obtain ⟨⟨-, hlive'⟩, hdigest⟩ := hcounts
          rcases hdead hlive newest hnewest hdigest with rfl | hrevoked
          · cases hlive.symm.trans hlive'
          · exact hrevoked (live_unrevoked hlive')
      show _ ≤ if live credentials row s.clock = true then count + 1 else count
      by_cases hlive : live credentials row s.clock = true
      · rw [if_pos hlive] at hone ⊢
        omega
      · rw [if_neg hlive] at hone ⊢
        omega
    · cases hreserves <;> contradiction
  | below i source user grant count hpc hbelow =>
    refine h.put (by intro _ _ _ _ _ hnone; cases hnone) fun user' p hreserves => ?_
    cases hreserves with
    | insert source' user' grant' hmine =>
      cases hmine
      refine Nat.lt_of_le_of_lt (Nat.le_trans (liveCount_mono fun _ _ => ?_)
        (h.counted i source user grant [] count hpc)) hbelow
      simp
    | _ => contradiction
  | insert i source user grant c hpc hc huser hunrevoked hexpires hfresh =>
    have hplace := h.reserved i user _ (.insert source user grant hpc)
    have hholds := hinv.holds i
    rw [Call.Holds, hpc] at hholds
    refine h.put (by intro _ _ _ _ _ hnone; cases hnone) fun user' p hreserves => ?_
    cases hreserves with
    | commit new hmine hnew =>
      cases hnew
      refine Nat.lt_of_le_of_lt (liveCount_mono fun _ _ => rfl) ?_
      rw [show (issued options source grant c s.clock).user = user from huser]
      exact hplace
    | _ => contradiction
  | read i operation row hpc hrow htarget hselects
  | reread i operation began old row hpc hfree hold hrow hdigest hselects => exact h.read hrow hselects
  | lock i operation began old at' hpc hfree hold hbegan hat =>
    have hholds := hinv.holds i
    rw [Call.Holds, hpc] at hholds
    cases operation with
    | rotate identity grant =>
      have hplace := h.reserved i identity.user _ (.wait identity grant began old hpc)
      refine h.put (by intro _ _ _ _ _ hnone; cases hnone) fun user' p hreserves => ?_
      cases hreserves with
      | successor identity' grant' old' hmine =>
        cases hmine
        exact hplace
      | _ => contradiction
    | _ =>
      refine h.quiet (by intro _ _ _ _ _ hnone; cases hnone) fun user' p hreserves => ?_
      cases hreserves with
      | commit new hmine hnew => cases hholds.1.inserted.symm.trans hnew
      | _ => contradiction
  | successor i identity grant old c at' hpc hc hat hfresh hcheck =>
    have hplace := h.reserved i identity.user _ (.successor identity grant old hpc)
    have hholds := hinv.holds i
    rw [Call.Holds, hpc] at hholds
    obtain ⟨-, -, huser, revokedAt, hupdated⟩ := hholds
    refine h.put (by intro _ _ _ _ _ hnone; cases hnone) fun user' p hreserves => ?_
    cases hreserves with
    | commit new hmine hnew =>
      cases hnew
      show liveCount credentials s old.user _ < _
      rw [huser]
      refine Nat.lt_of_le_of_lt (liveCount_mono fun digest hdigest => ?_) hplace
      simpa [hupdated] using hdigest
    | _ => contradiction
  | commit i hpc => exact h.commit hinv hpc fun new hnew => hcommit i new hpc rfl hnew
  | rollback i =>
    refine h.quiet (by intro _ _ _ _ _ hnone; cases hnone) fun user p hreserves => ?_
    cases hreserves <;> contradiction

theorem Bounded.start (clock : Nat) : Bounded credentials options ({clock} : State n) where
  limit _ := Nat.zero_le _
  counted := nofun
  reserved i user p hreserves := by cases hreserves <;> contradiction

end Agiru.BrowserSession
