import Agiru.BrowserSession.Bounded

/-! Browser sessions stay bounded, and dead ones stay dead.

A committed row stays, up to its idle expiry and its revocation; what has ended it ends every later
version of it. A rotation links a session that it has revoked to the session that replaces it. -/
namespace Agiru.BrowserSession
open Keyed Undo

variable {n : Nat} {credentials : String → Option Credential} {options : Options} {s t : State n}
variable {row : Row}
variable {digest : String}

/-! ### What stays in a run -/

structure Later (s t : State n) : Prop where
  clock : s.clock ≤ t.clock
  rows : ∀ row ∈ s.rows, ∃ new ∈ t.rows, Stays row new

theorem Later.refl (s : State n) : Later s s := ⟨Nat.le_refl _, fun row hrow => ⟨row, hrow, .refl row⟩⟩

theorem Later.trans {u : State n} (h : Later s t) (h' : Later t u) : Later s u := by
  refine ⟨Nat.le_trans h.clock h'.clock, fun row hrow => ?_⟩
  obtain ⟨new, hnew, hstays⟩ := h.rows row hrow
  obtain ⟨newer, hnewer, hstays'⟩ := h'.rows new hnew
  exact ⟨newer, hnewer, hstays.trans hstays'⟩

theorem Inv.later (h : Inv credentials s) (hstep : Step credentials options s t) : Later s t := by
  cases hstep with
  | time now hnow => exact ⟨hnow, fun row hrow => ⟨row, hrow, .refl row⟩⟩
  | commit i hpc => exact ⟨Nat.le_refl _, fun row hrow => h.stays hrow⟩
  | _ => exact ⟨Nat.le_refl _, fun row hrow => ⟨row, hrow, .refl row⟩⟩

theorem Inv.run (h : Inv credentials s)
    (hrun : Relation.ReflTransGen (Step credentials options) s t) : Inv credentials t ∧ Later s t := by
  induction hrun with
  | refl => exact ⟨h, .refl s⟩
  | tail _ hlast ih => exact ⟨ih.1.step hlast, ih.2.trans (ih.1.later hlast)⟩

/-- The row is revoked, or past one of its expiries. -/
def Ended (row : Row) (now : Nat) : Prop :=
  row.revokedAt ≠ none ∨ row.expiresAt ≤ now ∨ row.idleExpiresAt ≤ now

theorem Ended.not_live {now : Nat} (h : Ended row now) : live credentials row now = false := by
  by_contra hlive
  rw [Bool.not_eq_false] at hlive
  obtain ⟨hrevoked, hexpires, hidle, -⟩ := live_iff.mp hlive
  rcases h with h | h | h
  · exact h hrevoked
  · omega
  · omega

theorem Ended.mono {now now' : Nat} (h : Ended row now) (hnow : now ≤ now') : Ended row now' := by
  rcases h with h | h | h
  · exact .inl h
  · exact .inr (.inl (Nat.le_trans h hnow))
  · exact .inr (.inr (Nat.le_trans h hnow))

/-- A revoked session, or one past its absolute expiry, is not live in any later version. -/
theorem Inv.ended (h : Inv credentials s)
    (hrun : Relation.ReflTransGen (Step credentials options) s t) (hrow : row ∈ s.rows)
    (hended : row.revokedAt ≠ none ∨ row.expiresAt ≤ s.clock) {later : Row} (hlater : later ∈ t.rows)
    (hdigest : later.digest = row.digest) : live credentials later t.clock = false := by
  obtain ⟨hinv, hclock, hrows⟩ := h.run hrun
  obtain ⟨new, hnew, hstays⟩ := hrows row hrow
  obtain rfl : later = new :=
    List.inj_on_of_nodup_map hinv.keys hlater hnew (hdigest.trans hstays.digest.symm)
  apply Ended.not_live
  rcases hended with hrevoked | hexpired
  · exact .inl (hstays.revoked hrevoked)
  · exact .inr (.inl (hstays.expiresAt ▸ Nat.le_trans hexpired hclock))

/-- In a timely step also the idle expiry ends a session. -/
theorem TimelyStep.ended (h : Inv credentials s) (hstep : TimelyStep credentials options s t)
    (hrow : row ∈ s.rows) (hended : Ended row s.clock) :
    ∃ new ∈ t.rows, new.digest = row.digest ∧ Ended new t.clock := by
  obtain ⟨hstep, hcommit, -⟩ := hstep
  cases hstep with
  | time now hnow => exact ⟨row, hrow, rfl, hended.mono hnow⟩
  | commit i hpc =>
    by_cases hmine : ∃ new, (s.calls i).updated = some new ∧ row.digest = new.digest
    · obtain ⟨new, hnew, hdigest⟩ := hmine
      have hfollows := h.replaced hnew hrow hdigest
      refine ⟨new, mem_commit_updated hnew hrow hdigest, hdigest.symm, ?_⟩
      by_cases hrenewed : new.revokedAt = none
      · have hidle := hcommit i new hpc rfl hnew hrenewed row hrow hdigest
        rcases hended with hrevoked | hexpired | hexpired
        · exact absurd hfollows.unrevoked hrevoked
        · exact .inr (.inl (hfollows.expiresAt ▸ hexpired))
        · omega
      · exact .inl hrenewed
    · exact ⟨row, mem_commit_other hrow fun new hnew hdigest => hmine ⟨new, hnew, hdigest⟩, rfl, hended⟩
  | _ => exact ⟨row, hrow, rfl, hended⟩

theorem Inv.timelyEnded (h : Inv credentials s) (hrun : Relation.ReflTransGen (TimelyStep credentials options) s t)
    (hrow : row ∈ s.rows) (hended : Ended row s.clock) :
    Inv credentials t ∧ ∃ new ∈ t.rows, new.digest = row.digest ∧ Ended new t.clock := by
  induction hrun with
  | refl => exact ⟨h, row, hrow, rfl, hended⟩
  | tail _ hlast ih =>
    obtain ⟨hinv, new, hnew, hdigest, hended⟩ := ih
    obtain ⟨newer, hnewer, hdigest', hended'⟩ := hlast.ended hinv hnew hended
    exact ⟨hinv.step hlast.step, newer, hnewer, hdigest'.trans hdigest, hended'⟩

/-! ### Chains of rotations -/

/-- From a session to one that rotations have replaced it by. -/
abbrev Chain (s : State n) : String → String → Prop :=
  Relation.ReflTransGen fun old new => (old, new) ∈ s.rotations

/-- A session that was rotated is not live. -/
theorem Inv.rotated (h : Inv credentials s) (hrow : row ∈ s.rows) {next : String}
    (hmem : (row.digest, next) ∈ s.rotations) : live credentials row s.clock = false := by
  obtain ⟨old, new, hlink, heq⟩ := h.links _ hmem
  obtain rfl : old = row :=
    List.inj_on_of_nodup_map h.keys hlink.old_mem hrow (Prod.mk.inj heq).1.symm
  exact Ended.not_live (.inl hlink.revoked)

theorem Inv.next_unique (h : Inv credentials s) :
    Relator.RightUnique fun old new => (old, new) ∈ s.rotations := by
  intro old new new' hnew hnew'
  exact (Prod.mk.inj (List.inj_on_of_nodup_map h.once hnew hnew' rfl)).2

/-- What follows a live session in its chain is that session. -/
theorem Inv.chain_live (h : Inv credentials s) (hrow : row ∈ s.rows) (hlive : live credentials row s.clock = true)
    (hchain : Chain s row.digest digest) : digest = row.digest := by
  rcases hchain.cases_head with heq | ⟨next, hnext, -⟩
  · exact heq.symm
  · cases (h.rotated hrow hnext).symm.trans hlive

/-- A chain has one live session at most. -/
theorem Inv.chain_unique (h : Inv credentials s) {first : String} {a b : Row} (ha : a ∈ s.rows)
    (hb : b ∈ s.rows) (hfa : Chain s first a.digest) (hfb : Chain s first b.digest)
    (hla : live credentials a s.clock = true) (hlb : live credentials b s.clock = true) : a = b := by
  apply List.inj_on_of_nodup_map h.keys ha hb
  rcases hfa.total_of_right_unique h.next_unique hfb with hab | hba
  · exact (h.chain_live ha hla hab).symm
  · exact h.chain_live hb hlb hba

/-- No session of a chain outlives the first. -/
theorem Inv.chain_expiresAt (h : Inv credentials s) {first : Row} (hfirst : first ∈ s.rows)
    (hchain : Chain s first.digest digest) :
    ∀ row ∈ s.rows, row.digest = digest → row.expiresAt ≤ first.expiresAt := by
  induction hchain with
  | refl =>
    intro row hrow hdigest
    exact Nat.le_of_eq (congrArg _ (List.inj_on_of_nodup_map h.keys hrow hfirst hdigest))
  | tail _ hlast ih =>
    intro row hrow hdigest
    obtain ⟨old, new, hlink, heq⟩ := h.links _ hlast
    obtain ⟨rfl, rfl⟩ := Prod.mk.inj heq
    obtain rfl : row = new := List.inj_on_of_nodup_map h.keys hrow hlink.new_mem hdigest
    exact Nat.le_trans hlink.expiresAt (ih old hlink.old_mem rfl)

/-! ### Every run -/

/-- The runs whose steps are timely. -/
abbrev TimelyReached (credentials : String → Option Credential) (options : Options) (s : State n) :
    Prop :=
  Reachable (fun first : State n => ∃ clock, first = {clock}) (TimelyStep credentials options) s

theorem TimelyReached.run (h : TimelyReached credentials options s)
    (hrun : Relation.ReflTransGen (TimelyStep credentials options) s t) : TimelyReached credentials options t := by
  obtain ⟨first, hfirst, hbefore⟩ := h
  exact ⟨first, hfirst, hbefore.trans hrun⟩

theorem TimelyReached.bounded (h : TimelyReached credentials options s) :
    Inv credentials s ∧ Bounded credentials options s :=
  Reachable.invariant (I := fun s => Inv credentials s ∧ Bounded credentials options s)
    (fun _ ⟨clock, heq⟩ => heq ▸ ⟨Inv.start clock, Bounded.start clock⟩)
    (fun _ _ hs hstep => ⟨hs.1.step hstep.step, hs.2.step hs.1 hstep⟩) h

/-- **Browser sessions.** In every run a session that was seen revoked, or past its absolute expiry,
is never live again; each session is rotated at most once, and a chain of rotations has one live
session at most; no expiry moves, or is later than that of the first session of its chain, or of its
credential. If no renewal is late, the live sessions of a user are within the limit, and a session
that was seen past its idle expiry is never live again either. -/
theorem sessions_stay_dead (credentials : String → Option Credential) (options : Options)
    (s : State n) :
    (Reached credentials options s →
      (∀ t, Relation.ReflTransGen (Step credentials options) s t → ∀ row ∈ s.rows,
        ∀ later ∈ t.rows, later.digest = row.digest → later.expiresAt = row.expiresAt ∧
          (row.revokedAt ≠ none ∨ row.expiresAt ≤ s.clock → live credentials later t.clock = false)) ∧
      (s.rotations.map Prod.fst).Nodup ∧
      (∀ first, ∀ a ∈ s.rows, ∀ b ∈ s.rows, Chain s first a.digest → Chain s first b.digest →
        live credentials a s.clock = true → live credentials b s.clock = true → a = b) ∧
      (∀ first ∈ s.rows, ∀ row ∈ s.rows, Chain s first.digest row.digest →
        row.expiresAt ≤ first.expiresAt) ∧
      ∀ row ∈ s.rows, ∃ c, credentials row.source = some c ∧ row.expiresAt ≤ c.expiresAt) ∧
    (TimelyReached credentials options s →
      (∀ user, s.rows.countP (fun row => decide (row.user = user) && live credentials row s.clock) ≤
        options.sessionsPerUser) ∧
      ∀ t, Relation.ReflTransGen (TimelyStep credentials options) s t → ∀ row ∈ s.rows,
        row.idleExpiresAt ≤ s.clock → ∀ later ∈ t.rows, later.digest = row.digest →
          live credentials later t.clock = false) := by
  constructor
  · intro h
    have hinv := h.inv
    refine ⟨fun t hrun row hrow later hlater hdigest => ?_, hinv.once, ?_, ?_, hinv.capped⟩
    · obtain ⟨hinv', hlaterRun⟩ := hinv.run hrun
      obtain ⟨new, hnew, hstays⟩ := hlaterRun.rows row hrow
      obtain rfl : later = new :=
        List.inj_on_of_nodup_map hinv'.keys hlater hnew (hdigest.trans hstays.digest.symm)
      exact ⟨hstays.expiresAt, fun hended => hinv.ended hrun hrow hended hlater hdigest⟩
    · exact fun first a ha b hb hfa hfb hla hlb => hinv.chain_unique ha hb hfa hfb hla hlb
    · exact fun first hfirst row hrow hchain => hinv.chain_expiresAt hfirst hchain row hrow rfl
  · intro h
    obtain ⟨hinv, hbounded⟩ := h.bounded
    refine ⟨fun user => ?_, fun t hrun row hrow hidle later hlater hdigest => ?_⟩
    · simpa only [liveCount, Bool.and_true] using hbounded.limit user
    · obtain ⟨hinv', new, hnew, hsame, hended⟩ := hinv.timelyEnded hrun hrow (.inr (.inr hidle))
      obtain rfl : later = new :=
        List.inj_on_of_nodup_map hinv'.keys hlater hnew (hdigest.trans hsame.symm)
      exact hended.not_live

/-! ### A renewal in time, and one that is late -/

section Example

def oneSession : Options where
  idle := 1
  lifetime := 10
  sessionsPerUser := 1
  idle_pos := Nat.one_pos
  idle_le := by decide
  lifetime_le := by decide
  sessionsPerUser_pos := Nat.one_pos
  sessionsPerUser_le := by decide

def credential (source : String) : Option Credential :=
  if source = "c" then some ⟨"u", 1000000000, none⟩ else none

def firstRow : Row := issued oneSession "c" ⟨"a", "x"⟩ ⟨"u", 1000000000, none⟩ 0

/-- The first session, renewed just before its idle expiry. -/
def renewedRow : Row :=
  (Operation.renew ⟨"a", "u", "x"⟩).sets credential firstRow 999999

/-- The rows that a count has left to judge. -/
def Call.judged (call : Call) : List Row :=
  match call.pc with
  | .population _ _ _ rest _ => rest
  | _ => []

/-- A step is timely if nothing is updated, or all sessions are within their idle time, and the counts
judge the newest rows. -/
theorem TimelyStep.of_current (hstep : Step credentials options s t)
    (hupdates : (∀ i, (s.calls i).updated = none) ∨ ∀ row ∈ s.rows, s.clock < row.idleExpiresAt)
    (hjudges : ∀ i, ∀ row ∈ (s.calls i).judged, ∀ newest ∈ s.rows, newest.digest = row.digest → newest = row) :
    TimelyStep credentials options s t where
  step := hstep
  commit i new _ _ hupdated _ old hold _ := by
    rcases hupdates with hnone | hidle
    · rw [hnone i] at hupdated
      cases hupdated
    · exact hidle old hold
  judge i source user grant row rest count _ hpc _ _ newest hnewest hdigest := by
    have hjudged : row ∈ (s.calls i).judged := by
      rw [Call.judged, hpc]
      exact List.mem_cons_self
    exact .inl (hjudges i row hjudged newest hnewest hdigest)

theorem State.Fresh.of_none (hrows : ∀ row ∈ s.rows, row.digest ≠ digest)
    (hcalls : ∀ j, (s.calls j).inserted = none) : s.Fresh digest := by
  refine ⟨hrows, fun j row hrow => ?_⟩
  rw [hcalls j] at hrow
  cases hrow

theorem State.RowFree.of_none {i : Fin n} (hcalls : ∀ j, j ≠ i → (s.calls j).updated = none) : s.RowFree i digest := by
  intro j hj row hrow
  rw [hcalls j hj] at hrow
  cases hrow

/-- A session renewed in time, while another connection was admitted; later it has idled out, and another is
issued in its place. -/
theorem replaced_session : ∃ s t : State 2, TimelyReached credential oneSession s ∧
    Relation.ReflTransGen (TimelyStep credential oneSession) s t ∧
    (renewedRow ∈ s.rows ∧ renewedRow.idleExpiresAt ≤ s.clock) ∧
    ∃ row ∈ t.rows, live credential row t.clock = true := by
  have h0 : TimelyReached credential oneSession ({clock := 0} : State 2) := ⟨_, ⟨0, rfl⟩, .refl⟩
  have hissued := ((((((h0.step (.of_current (.call 0 (.issue "c" "u" ⟨"a", "x"⟩) rfl) (by decide) (by decide))).step
    (.of_current (.admission 0 (.issue "c" "u" ⟨"a", "x"⟩) rfl (by decide)) (by decide) (by decide))).step
    (.of_current (.snapshot 0 "c" "u" ⟨"a", "x"⟩ rfl) (by decide) (by decide))).step
    (.of_current (.below 0 "c" "u" ⟨"a", "x"⟩ 0 rfl (by decide)) (by decide) (by decide))).step
    (.of_current (.insert 0 "c" "u" ⟨"a", "x"⟩ ⟨"u", 1000000000, none⟩ rfl rfl rfl rfl (by decide)
      (.of_none (by decide) (by decide))) (by decide) (by decide))).step
    (.of_current (.commit 0 rfl) (by decide) (by decide)))
  have hlocked := ((((((hissued.step (.of_current (.time 999999 (by decide)) (by decide) (by decide))).step
    (.of_current (.call 0 (.renew ⟨"a", "u", "x"⟩) rfl) (by decide) (by decide))).step
    (.of_current (.read 0 (.renew ⟨"a", "u", "x"⟩) firstRow rfl (by decide) rfl (by decide)) (by decide)
      (by decide))).step
    (.of_current (.call 1 (.issue "c" "u" ⟨"b", "y"⟩) rfl) (by decide) (by decide))).step
    (.of_current (.admission 1 (.issue "c" "u" ⟨"b", "y"⟩) rfl (by decide)) (by decide) (by decide))).step
    (.of_current (.lock 0 (.renew ⟨"a", "u", "x"⟩) 999999 firstRow 999999 rfl (.of_none (by decide))
      (by decide) (by decide) (by decide)) (by decide) (by decide)))
  have hidle := ((hlocked.step (.of_current (.commit 0 rfl) (.inr (by decide)) (by decide))).step
    (.of_current (.time 2000000 (by decide)) (by decide) (by decide)))
  exact ⟨_, _, hidle, (((((Relation.ReflTransGen.refl.tail
    (.of_current (.snapshot 1 "c" "u" ⟨"b", "y"⟩ rfl) (by decide) (by decide))).tail
    (.of_current (.judge 1 "c" "u" ⟨"b", "y"⟩ renewedRow [] 0 rfl) (by decide) (by decide))).tail
    (.of_current (.below 1 "c" "u" ⟨"b", "y"⟩ 0 rfl (by decide)) (by decide) (by decide))).tail
    (.of_current (.insert 1 "c" "u" ⟨"b", "y"⟩ ⟨"u", 1000000000, none⟩ rfl rfl rfl rfl (by decide)
      (.of_none (by decide) (by decide))) (by decide) (by decide))).tail
    (.of_current (.commit 1 rfl) (by decide) (by decide))), by decide, by decide⟩

theorem sessions_stay_dead_replaced : ∃ t : State 2, TimelyReached credential oneSession t ∧
    (∃ row ∈ t.rows, live credential row t.clock = true) ∧
    (∀ later ∈ t.rows, later.digest = renewedRow.digest → live credential later t.clock = false) ∧
    ∀ user, t.rows.countP (fun row => decide (row.user = user) && live credential row t.clock) ≤
      oneSession.sessionsPerUser := by
  obtain ⟨s, t, hs, hrun, ⟨hrenewed, hidle⟩, hissued⟩ := replaced_session
  have ht := hs.run hrun
  exact ⟨t, ht, hissued, ((sessions_stay_dead credential oneSession s).2 hs).2 t hrun renewedRow hrenewed hidle,
    ((sessions_stay_dead credential oneSession t).2 ht).1⟩

/-- The first session was seen past its idle expiry while its renewal was not committed: it is live
again, besides the one session that the user may have. -/
theorem late_renewal : ∃ s t : State 2, Reached credential oneSession s ∧
    Relation.ReflTransGen (Step credential oneSession) s t ∧
    (∃ row ∈ s.rows, row.idleExpiresAt ≤ s.clock ∧
      ∃ later ∈ t.rows, later.digest = row.digest ∧ live credential later t.clock = true) ∧
    oneSession.sessionsPerUser <
      t.rows.countP fun row => decide (row.user = "u") && live credential row t.clock := by
  have hstart : Reached credential oneSession ({clock := 0} : State 2) := ⟨_, ⟨0, rfl⟩, .refl⟩
  have hissued := ((((((hstart.step (.call 0 (.issue "c" "u" ⟨"a", "x"⟩) rfl)).step
    (.admission 0 (.issue "c" "u" ⟨"a", "x"⟩) rfl (by decide))).step
    (.snapshot 0 "c" "u" ⟨"a", "x"⟩ rfl)).step
    (.below 0 "c" "u" ⟨"a", "x"⟩ 0 rfl (by decide))).step
    (.insert 0 "c" "u" ⟨"a", "x"⟩ ⟨"u", 1000000000, none⟩ rfl rfl rfl rfl (by decide)
      (.of_none (by decide) (by decide)))).step (.commit 0 rfl))
  have hrenewing := ((((hissued.step (.time 999999 (by decide))).step
    (.call 0 (.renew ⟨"a", "u", "x"⟩) rfl)).step
    (.read 0 (.renew ⟨"a", "u", "x"⟩) firstRow rfl (by decide) rfl (by decide))).step
    (.lock 0 (.renew ⟨"a", "u", "x"⟩) 999999 firstRow 999999 rfl
      (.of_none (by decide)) (by decide) (by decide) (by decide))).step (.time 1000000 (by decide))
  refine ⟨_, _, hrenewing, ((((((((Relation.ReflTransGen.refl.tail
    (.call 1 (.issue "c" "u" ⟨"b", "y"⟩) rfl)).tail
    (.admission 1 (.issue "c" "u" ⟨"b", "y"⟩) rfl (by decide))).tail
    (.snapshot 1 "c" "u" ⟨"b", "y"⟩ rfl)).tail
    (.judge 1 "c" "u" ⟨"b", "y"⟩ firstRow [] 0 rfl)).tail
    (.below 1 "c" "u" ⟨"b", "y"⟩ 0 rfl (by decide))).tail
    (.insert 1 "c" "u" ⟨"b", "y"⟩ ⟨"u", 1000000000, none⟩ rfl rfl rfl rfl (by decide)
      (.of_none (by decide) (by decide)))).tail (.commit 1 rfl)).tail
    (.commit 0 rfl)), ⟨firstRow, by decide, by decide, renewedRow, by decide, rfl, by decide⟩, by decide⟩

end Example

end Agiru.BrowserSession
