import Agiru.Runner.Databases

/-! What the runners do to databases.

A runner that has looked at the database of its name keeps the lock until it has acted on what it saw, so the database
is still that one (`Known`). Nothing is dropped that does not carry the mark (`step_owned`), and a database without it
outlives every run (`unmarked_outlives`). -/
namespace Agiru.Runner
open Bytes Undo Delimited

variable {name : Bytes}

/-! ### How the statements are read -/

theorem readKeyword_append (keyword text : Bytes) : readKeyword keyword (keyword ++ text) = some text := by
  rw [readKeyword, List.take_left, List.drop_left, if_pos rfl]

theorem readKeyword_other {keyword other : Bytes} {i : Nat} (hkeyword : i < keyword.length) (hother : i < other.length)
    (h : other[i]? ≠ keyword[i]?) (text : Bytes) : readKeyword keyword (other ++ text) = none := by
  refine if_neg fun htake => h ?_
  have hat := congrArg (fun text => text[i]?) htake
  rwa [List.getElem?_take_of_lt hkeyword, List.getElem?_append_left hother] at hat

theorem readName_quoted {cut : Bytes → Bytes} (hcut : cut name = name) (rest : Bytes)
    (hrest : rest.head? ≠ some Ch.doubleQuote) : readName cut (quoted name ++ rest) = some (name, rest) := by
  rw [readName, quoted, readDelimited_delimited hrest, Option.map_some, hcut]

theorem readName_before {cut : Bytes → Bytes} {c : UInt8} (hcut : cut name = name) (keyword : Bytes)
    (hkeyword : keyword.head? = some c) (hc : c ≠ Ch.doubleQuote) (rest : Bytes) :
    readName cut (quoted name ++ (keyword ++ rest)) = some (name, keyword ++ rest) := by
  refine readName_quoted hcut _ ?_
  rw [List.head?_append, hkeyword, Option.some_or]
  exact fun h => hc (Option.some.inj h)

theorem readStatement_dropText {cut : Bytes → Bytes} (hcut : cut name = name) :
    readStatement cut (dropText name) = some (.drop name) := by
  have hread := readName_quoted hcut [] (by simp)
  rw [List.append_nil] at hread
  have hdrop : readDrop cut (dropText name) = some (.drop name) := by
    rw [readDrop, dropText, readKeyword_append]
    simp only [Option.bind_eq_bind, Option.bind_some, hread, if_true]
  rw [readStatement, hdrop, Option.some_or]

theorem readStatement_createText {cut : Bytes → Bytes} (hcut : cut name = name) (source : Bytes) :
    readStatement cut (createText name source) = some (.create name (cut source)) := by
  have htext : createText name source =
      ascii "CREATE DATABASE " ++ (quoted name ++ (ascii " TEMPLATE " ++ (quoted source ++ []))) := by
    rw [createText, List.append_nil, List.append_assoc, List.append_assoc]
  have hsource : readName cut (quoted source ++ []) = some (cut source, []) := by
    rw [readName, quoted, readDelimited_delimited (by simp), Option.map_some]
  have hdrop : readDrop cut (createText name source) = none := by
    rw [readDrop, htext, readKeyword_other (by decide : 0 < _) (by decide) (by decide)]
    rfl
  have hname := readName_before hcut (ascii " TEMPLATE ") rfl (by decide) (quoted source ++ [])
  have hcreate : readCreate cut (createText name source) = some (.create name (cut source)) := by
    rw [readCreate, htext, readKeyword_append]
    simp only [Option.bind_eq_bind, Option.bind_some, hname, hsource, readKeyword_append, if_true]
  rw [readStatement, hdrop, hcreate, Option.none_or, Option.some_or]

theorem doubled_plain {d : UInt8} {text : Bytes} (h : d ∉ text) : doubled d text = text := by
  induction text with
  | nil => rfl
  | cons c text ih =>
    rw [List.mem_cons, not_or] at h
    rw [doubled, if_neg (Ne.symm h.1), ih h.2]

theorem readStatement_commentText {cut : Bytes → Bytes} {marker : Bytes} (hcut : cut name = name)
    (hmarker : Ch.quote ∉ marker) :
    readStatement cut (commentText name marker) = some (.comment name marker) := by
  have htext : commentText name marker =
      ascii "COMMENT ON DATABASE " ++ (quoted name ++ (ascii " IS " ++ (delimited Ch.quote marker ++ []))) := by
    have hend : ascii " IS '" = ascii " IS " ++ [Ch.quote] := by decide
    rw [commentText, delimited, doubled_plain hmarker, hend]
    simp only [List.append_assoc, List.append_nil, List.cons_append, List.nil_append]
  have hdrop : readDrop cut (commentText name marker) = none := by
    rw [readDrop, htext, readKeyword_other (by decide : 0 < _) (by decide) (by decide)]
    rfl
  have hcreate : readCreate cut (commentText name marker) = none := by
    rw [readCreate, htext, readKeyword_other (by decide : 1 < _) (by decide) (by decide)]
    rfl
  have hname := readName_before hcut (ascii " IS ") rfl (by decide) (delimited Ch.quote marker ++ [])
  have hread : readDelimited Ch.quote (delimited Ch.quote marker ++ []) = some (marker, []) :=
    readDelimited_delimited (by decide)
  have hcomment : readComment cut (commentText name marker) = some (.comment name marker) := by
    rw [readComment, htext, readKeyword_append]
    simp only [Option.bind_eq_bind, Option.bind_some, hname, hread, readKeyword_append, if_true]
  rw [readStatement, hdrop, hcreate, hcomment, Option.none_or, Option.none_or]

theorem quote_not_mem_marker (oid : Nat) : Ch.quote ∉ runnerMarker ++ natText oid := by
  rw [List.mem_append, not_or]
  refine ⟨by decide, fun hmem => ?_⟩
  have hlow := (natText_digit hmem).1
  exact absurd hlow (by decide)

/-! ### What a runner knows -/

/-- What this database is to a runner that has found it: one that it may replace. -/
structure Owns (r : RunnerDatabase) (database : Database) : Prop where
  plain : database.template = false
  owner : database.owner = r.role
  marked : database.comment = r.marker

theorem owns_of_mayReplace {r : RunnerDatabase} {database : Database}
    (h : (database.identity r.role).mayReplace r.marker = true) : Owns r database := by
  obtain ⟨hplain, howner, hmarked⟩ := mayReplace_iff.mp h
  exact ⟨hplain, howner, hmarked⟩

/-- Between taking the lock and giving it back. -/
def Pc.critical : Pc → Bool
  | .findSource | .find | .drop | .create | .comment | .findClone | .findHeld | .dropHeld => true
  | .checkName | .lockScratch | .held | .lockHeld | .failed => false

/-- Behind the look at the source. -/
def Pc.marks : Pc → Bool
  | .find | .drop | .create | .comment | .findClone | .held | .lockHeld | .findHeld | .dropHeld => true
  | .checkName | .lockScratch | .findSource | .failed => false

/-- What a runner knows of the database of its name. -/
structure Known (maxIdentifierLength : Nat) (r : RunnerDatabase) (found : Option Database) : Prop where
  admitted : r.Admitted
  locks : r.locked = r.pc.critical
  fits : r.pc ≠ .checkName → r.pc ≠ .failed → r.name.length ≤ maxIdentifierLength
  marker : r.pc.marks = true → ∃ oid, r.marker = runnerMarker ++ natText oid
  drop : r.pc = .drop → ∃ database, found = some database ∧ Owns r database
  comment : r.pc = .comment → ∃ oid, r.made = some oid ∧ found = some ⟨oid, false, r.role, []⟩
  dropHeld : r.pc = .dropHeld → ∃ database, found = some database ∧ Owns r database ∧
    natText database.oid = r.identity

variable {maxIdentifierLength : Nat} {r r' : RunnerDatabase} {found : Option Database}

theorem Known.elsewhere (h : Known maxIdentifierLength r found) (hfree : r.locked = false) (found' : Option Database) :
    Known maxIdentifierLength r found' := by
  have hcritical : r.pc.critical = false := h.locks.symm.trans hfree
  refine ⟨h.admitted, h.locks, h.fits, h.marker, fun hpc => ?_, fun hpc => ?_, fun hpc => ?_⟩ <;>
    rw [hpc] at hcritical <;> cases hcritical

/-- What a statement of a runner may do to the databases; it does nothing without the lock of its name. -/
inductive Changed (r : RunnerDatabase) (databases : Bytes → Option Database) : (Bytes → Option Database) → Prop
  | same : Changed r databases databases
  | dropped (database : Database) (source : Nat) : r.locked = true → databases r.name = some database →
    Owns r database → database.comment = runnerMarker ++ natText source →
    (r.pc = .dropHeld → natText database.oid = r.identity) →
    Changed r databases (Function.update databases r.name none)
  | created (oid : Nat) : r.locked = true → databases r.name = none →
    (∀ other database, databases other = some database → database.oid ≠ oid) →
    Changed r databases (Function.update databases r.name (some ⟨oid, false, r.role, []⟩))
  /-- The clone that it made. -/
  | commented (oid : Nat) : r.locked = true → r.pc = .comment → r.made = some oid →
    databases r.name = some ⟨oid, false, r.role, []⟩ →
    Changed r databases (Function.update databases r.name (some ⟨oid, false, r.role, r.marker⟩))

theorem Changed.elsewhere {databases databases' : Bytes → Option Database} (h : Changed r databases databases')
    (hne : name ≠ r.name) : databases' name = databases name := by
  cases h with
  | same => rfl
  | dropped | created | commented => exact Function.update_of_ne hne ..

theorem Turn.name_eq {source : Option Database} {text : Option Bytes}
    (h : Turn maxIdentifierLength found source r text r') : r'.name = r.name ∧ r'.role = r.role := by
  cases h <;> exact ⟨rfl, rfl⟩

section
variable {postgres : Postgres} {databases databases' : Bytes → Option Database} {source : Option Database}
  {text : Option Bytes}

theorem asked_drop (hcut : postgres.cut r.name = r.name)
    (h : Asked postgres r.role (some (dropText r.name)) databases databases') :
    databases r.name ≠ none ∧ databases' = Function.update databases r.name none := by
  obtain ⟨statement, hread, hexecutes⟩ := h
  rw [readStatement_dropText hcut, Option.some.injEq] at hread
  subst hread
  cases hexecutes with
  | drop _ hfound => exact ⟨hfound, rfl⟩

theorem asked_create (hcut : postgres.cut r.name = r.name)
    (h : Asked postgres r.role (some (createText r.name r.source)) databases databases') :
    ∃ oid, databases r.name = none ∧
      (∀ other database, databases other = some database → database.oid ≠ oid) ∧
      databases' = Function.update databases r.name (some ⟨oid, false, r.role, []⟩) := by
  obtain ⟨statement, hread, hexecutes⟩ := h
  rw [readStatement_createText hcut, Option.some.injEq] at hread
  subst hread
  cases hexecutes with
  | create _ _ oid habsent _ hnew => exact ⟨oid, habsent, hnew, rfl⟩

theorem asked_comment (hcut : postgres.cut r.name = r.name) (hmarker : Ch.quote ∉ r.marker)
    (h : Asked postgres r.role (some (commentText r.name r.marker)) databases databases') :
    ∃ database, databases r.name = some database ∧
      databases' = Function.update databases r.name (some {database with comment := r.marker}) := by
  obtain ⟨statement, hread, hexecutes⟩ := h
  rw [readStatement_commentText hcut hmarker, Option.some.injEq] at hread
  subst hread
  cases hexecutes with
  | comment _ _ database hfound => exact ⟨database, hfound, rfl⟩

theorem known_of (hadmitted : r.Admitted) (hlocks : r.locked = r.pc.critical)
    (hfits : r.pc ≠ .checkName → r.pc ≠ .failed → r.name.length ≤ maxIdentifierLength)
    (hmarker : r.pc.marks = true → ∃ oid, r.marker = runnerMarker ++ natText oid)
    (hother : r.pc ≠ .drop ∧ r.pc ≠ .comment ∧ r.pc ≠ .dropHeld) : Known maxIdentifierLength r found :=
  ⟨hadmitted, hlocks, hfits, hmarker, fun hpc => absurd hpc hother.1, fun hpc => absurd hpc hother.2.1,
    fun hpc => absurd hpc hother.2.2⟩

/-- A statement of a runner that knows what it says changes what it may, and the runner knows what it then says. -/
theorem turn_known (h : Known postgres.maxIdentifierLength r (databases r.name))
    (hturn : Turn postgres.maxIdentifierLength (databases r.name) source r text r')
    (hasked : Asked postgres r.role text databases databases')
    (hmade : r'.pc = .comment → r'.made = (databases' r.name).map Database.oid) :
    Changed r databases databases' ∧ Known postgres.maxIdentifierLength r' (databases' r'.name) := by
  -- what every statement but the first finds
  have hbehind : ∀ {pc}, r.pc = pc → pc ≠ .checkName → pc ≠ .failed → r.name.length ≤ postgres.maxIdentifierLength := by
    rintro pc rfl
    exact h.fits
  have hmarker : ∀ {pc}, r.pc = pc → pc.marks = true → ∃ oid, r.marker = runnerMarker ++ natText oid := by
    rintro pc rfl
    exact h.marker
  have hlocks : ∀ {pc pc' : Pc}, r.pc = pc → pc.critical = pc'.critical → r.locked = pc'.critical := by
    rintro pc pc' rfl hsame
    exact h.locks.trans hsame
  cases hturn with
  | checkName hpc hfits =>
    cases hasked
    exact ⟨.same, known_of h.admitted (hlocks hpc rfl) (fun _ _ => hfits) (by intro hmarks; cases hmarks)
      (by dsimp only; decide)⟩
  | lockScratch hpc =>
    cases hasked
    exact ⟨.same, known_of h.admitted rfl (fun _ _ => hbehind hpc (by decide) (by decide))
      (by intro hmarks; cases hmarks) (by dsimp only; decide)⟩
  | findSource database hpc =>
    cases hasked
    exact ⟨.same, known_of h.admitted (hlocks hpc rfl) (fun _ _ => hbehind hpc (by decide) (by decide))
      (fun _ => ⟨database.oid, rfl⟩) (by dsimp only; decide)⟩
  | absent hpc =>
    cases hasked
    exact ⟨.same, known_of h.admitted (hlocks hpc rfl) (fun _ _ => hbehind hpc (by decide) (by decide))
      (fun _ => hmarker hpc rfl) (by dsimp only; decide)⟩
  | existing database hpc | findClone database hpc =>
    cases hasked
    exact ⟨.same, known_of h.admitted rfl (fun _ _ => hbehind hpc (by decide) (by decide))
      (fun _ => hmarker hpc rfl) (by dsimp only [RunnerDatabase.closed]; decide)⟩
  | replaced database hpc hfound hmay =>
    cases hasked
    exact ⟨.same, h.admitted, hlocks hpc rfl, fun _ _ => hbehind hpc (by decide) (by decide), fun _ => hmarker hpc rfl,
      fun _ => ⟨database, hfound, owns_of_mayReplace hmay⟩, (by intro hne; cases hne), (by intro hne; cases hne)⟩
  | drop hpc =>
    obtain ⟨-, rfl⟩ := asked_drop (postgres.cut_short _ (hbehind hpc (by decide) (by decide))) hasked
    obtain ⟨database, hfound, howns⟩ := h.drop hpc
    obtain ⟨source, hsource⟩ := hmarker hpc rfl
    exact ⟨.dropped database source (h.locks.trans (hpc ▸ rfl)) hfound howns (howns.marked.trans hsource)
      (fun hne => by rw [hpc] at hne; cases hne),
      known_of h.admitted (hlocks hpc rfl) (fun _ _ => hbehind hpc (by decide) (by decide)) (fun _ => hmarker hpc rfl)
        (by dsimp only; decide)⟩
  | create made hpc =>
    obtain ⟨oid, habsent, hnew, rfl⟩ :=
      asked_create (postgres.cut_short _ (hbehind hpc (by decide) (by decide))) hasked
    have hmade : some made = (Function.update databases r.name (some ⟨oid, false, r.role, []⟩) r.name).map
        Database.oid := hmade rfl
    rw [Function.update_self] at hmade
    exact ⟨.created oid (h.locks.trans (hpc ▸ rfl)) habsent hnew, h.admitted, hlocks hpc rfl,
        fun _ _ => hbehind hpc (by decide) (by decide),
      fun _ => hmarker hpc rfl, (by intro hne; cases hne), fun _ => ⟨oid, hmade, Function.update_self ..⟩,
      (by intro hne; cases hne)⟩
  | comment hpc =>
    obtain ⟨source, hsource⟩ := hmarker hpc rfl
    obtain ⟨oid, hown, hclone⟩ := h.comment hpc
    obtain ⟨database, hfound, rfl⟩ := asked_comment (postgres.cut_short _ (hbehind hpc (by decide) (by decide)))
      (hsource ▸ quote_not_mem_marker source) hasked
    rw [hclone, Option.some.injEq] at hfound
    subst hfound
    exact ⟨.commented oid (h.locks.trans (hpc ▸ rfl)) hpc hown hclone, known_of h.admitted (hlocks hpc rfl)
      (fun _ _ => hbehind hpc (by decide) (by decide)) (fun _ => hmarker hpc rfl) (by dsimp only; decide)⟩
  | call hpc =>
    cases hasked
    exact ⟨.same, known_of h.admitted (hlocks hpc rfl) (fun _ _ => hbehind hpc (by decide) (by decide))
      (fun _ => hmarker hpc rfl) (by dsimp only; decide)⟩
  | lockHeld hpc =>
    cases hasked
    exact ⟨.same, known_of h.admitted rfl (fun _ _ => hbehind hpc (by decide) (by decide))
      (fun _ => hmarker hpc rfl) (by dsimp only; decide)⟩
  | gone hpc =>
    cases hasked
    exact ⟨.same, known_of h.admitted rfl (fun _ _ => hbehind hpc (by decide) (by decide))
      (fun _ => hmarker hpc rfl) (by dsimp only [RunnerDatabase.closed]; decide)⟩
  | findHeld database hpc hfound hmay hidentity =>
    cases hasked
    exact ⟨.same, h.admitted, hlocks hpc rfl, fun _ _ => hbehind hpc (by decide) (by decide), fun _ => hmarker hpc rfl,
      (by intro hne; cases hne), (by intro hne; cases hne),
      fun _ => ⟨database, hfound, owns_of_mayReplace hmay, hidentity⟩⟩
  | dropHeld hpc =>
    obtain ⟨-, rfl⟩ := asked_drop (postgres.cut_short _ (hbehind hpc (by decide) (by decide))) hasked
    obtain ⟨database, hfound, howns, hidentity⟩ := h.dropHeld hpc
    obtain ⟨source, hsource⟩ := hmarker hpc rfl
    exact ⟨.dropped database source (h.locks.trans (hpc ▸ rfl)) hfound howns (howns.marked.trans hsource)
      (fun _ => hidentity),
      known_of h.admitted rfl (fun _ _ => hbehind hpc (by decide) (by decide)) (fun _ => hmarker hpc rfl)
        (by dsimp only [RunnerDatabase.closed]; decide)⟩
  | fail =>
    cases hasked
    exact ⟨.same, known_of h.admitted rfl (fun _ hne => absurd rfl hne) (by intro hmarks; cases hmarks)
      (by dsimp only [RunnerDatabase.closed]; decide)⟩
  | failHeld hpc =>
    cases hasked
    have hheld : r.pc ≠ .checkName ∧ r.pc ≠ .failed ∧ r.pc.marks = true := by
      simp only [List.mem_cons, List.not_mem_nil, or_false] at hpc
      rcases hpc with hpc | hpc | hpc <;> rw [hpc] <;> decide
    exact ⟨.same, known_of h.admitted rfl (fun _ _ => h.fits hheld.1 hheld.2.1) (fun _ => h.marker hheld.2.2)
      (by dsimp only [RunnerDatabase.closed]; decide)⟩

/-- The constructor returns with the database that it names. -/
theorem turn_returns (hturn : Turn maxIdentifierLength (databases r.name) source r text r')
    (hpc : r.pc.critical = true) (hfree : r.pc ≠ .findHeld) (hdrop : r.pc ≠ .dropHeld) (hheld : r'.pc = .held) :
    ∃ database, databases r.name = some database ∧ Owns r database ∧ r'.identity = natText database.oid := by
  cases hturn with
  | existing database _ hfound hmay | findClone database _ hfound hmay =>
    exact ⟨database, hfound, owns_of_mayReplace hmay, rfl⟩
  | gone h | findHeld _ h => exact absurd h hfree
  | dropHeld h => exact absurd h hdrop
  | failHeld h =>
    simp only [List.mem_cons, List.not_mem_nil, or_false] at h
    rcases h with h | h | h
    · rw [h] at hpc
      cases hpc
    · exact absurd h hfree
    · exact absurd h hdrop
  | _ => cases hheld

end

/-! ### Any number of runners -/

section
variable {ι : Type} [DecidableEq ι] {postgres : Postgres} {s s' : Server ι}

structure Inv (postgres : Postgres) (s : Server ι) : Prop where
  known : ∀ i r, s.runners i = some r → Known postgres.maxIdentifierLength r (s.databases r.name)
  single : ∀ i j r r', s.runners i = some r → s.runners j = some r' → r.locked = true → r'.locked = true →
    lockKey postgres r.name = lockKey postgres r'.name → i = j

theorem update_cases {runners : ι → Option RunnerDatabase} {i j : ι} {r rj : RunnerDatabase}
    (h : Function.update runners i (some r) j = some rj) : (j = i ∧ rj = r) ∨ (j ≠ i ∧ runners j = some rj) := by
  by_cases hij : j = i
  · subst hij
    rw [Function.update_self, Option.some.injEq] at h
    exact .inl ⟨rfl, h.symm⟩
  · rw [Function.update_of_ne hij] at h
    exact .inr ⟨hij, h⟩

theorem Inv.construct (h : Inv postgres s) {i : ι} {r : RunnerDatabase} (hadmitted : r.Admitted)
    (hpc : r.pc = .checkName) (hfree : r.locked = false) :
    Inv postgres {s with runners := Function.update s.runners i (some r)} := by
  constructor
  · intro j rj hj
    rcases update_cases hj with ⟨rfl, rfl⟩ | ⟨-, hj⟩
    · refine known_of hadmitted (by rw [hfree, hpc]; rfl) (fun hne => absurd hpc hne) ?_ ?_ <;> rw [hpc]
      · intro hmarks
        cases hmarks
      · decide
    · exact h.known j rj hj
  · intro j k rj rk hj hk hlj hlk hkeys
    rcases update_cases hj with ⟨rfl, rfl⟩ | ⟨-, hj⟩
    · rw [hfree] at hlj
      cases hlj
    · rcases update_cases hk with ⟨rfl, rfl⟩ | ⟨-, hk⟩
      · rw [hfree] at hlk
        cases hlk
      · exact h.single j k rj rk hj hk hlj hlk hkeys

omit [DecidableEq ι] in
/-- Whoever holds a lock finds nothing changed under its name by another. -/
theorem Inv.unchanged (h : Inv postgres s) {i j : ι} {r rj : RunnerDatabase} {databases : Bytes → Option Database}
    (hi : s.runners i = some r) (hj : s.runners j = some rj) (hij : j ≠ i) (hlocked : rj.locked = true)
    (hchanged : Changed r s.databases databases) : databases rj.name = s.databases rj.name := by
  by_cases hname : rj.name = r.name
  · have hfree : r.locked ≠ true := fun hr => hij (h.single j i rj r hj hi hlocked hr (by rw [hname]))
    cases hchanged with
    | same => rfl
    | dropped _ _ hr | created _ hr | commented _ hr => exact absurd hr hfree
  · exact hchanged.elsewhere hname

theorem Inv.turn (h : Inv postgres s) {i : ι} {r r' : RunnerDatabase} {text : Option Bytes}
    {databases : Bytes → Option Database} (hi : s.runners i = some r)
    (hturn : Turn postgres.maxIdentifierLength (s.databases r.name) (s.databases r.source) r text r')
    (hwaits : r.locked = false → r'.locked = true → ¬ s.Locked postgres r.name)
    (hasked : Asked postgres r.role text s.databases databases)
    (hmade : r'.pc = .comment → r'.made = (databases r.name).map Database.oid) :
    Changed r s.databases databases ∧ Inv postgres ⟨databases, Function.update s.runners i (some r')⟩ := by
  obtain ⟨hchanged, hknown⟩ := turn_known (h.known i r hi) hturn hasked hmade
  refine ⟨hchanged, fun j rj hj => ?_, fun j k rj rk hj hk hlj hlk hkeys => ?_⟩
  · rcases update_cases hj with ⟨rfl, rfl⟩ | ⟨hij, hj⟩
    · exact hknown
    · have hold := h.known j rj hj
      cases hlocked : rj.locked with
      | true =>
        change Known _ rj (databases rj.name)
        rw [h.unchanged hi hj hij hlocked hchanged]
        exact hold
      | false => exact hold.elsewhere hlocked _
  · -- a lock that was waited for is nobody else's
    have hothers : ∀ {j rj}, j ≠ i → s.runners j = some rj → rj.locked = true → r'.locked = true →
        lockKey postgres rj.name ≠ lockKey postgres r'.name := by
      intro j rj hij hj hlj hlocked hkeys
      rw [hturn.name_eq.1] at hkeys
      cases hbefore : r.locked with
      | true => exact hij (h.single j i rj r hj hi hlj hbefore hkeys)
      | false => exact hwaits hbefore hlocked ⟨j, rj, hj, hlj, hkeys⟩
    rcases update_cases hj with ⟨rfl, rfl⟩ | ⟨hij, hbefore⟩
    · rcases update_cases hk with ⟨rfl, -⟩ | ⟨hik, hbefore⟩
      · rfl
      · exact absurd hkeys.symm (hothers hik hbefore hlk hlj)
    · rcases update_cases hk with ⟨rfl, rfl⟩ | ⟨-, hbefore'⟩
      · exact absurd hkeys (hothers hij hbefore hlj hlk)
      · exact h.single j k rj rk hbefore hbefore' hlj hlk hkeys

theorem Inv.step (h : Inv postgres s) (hstep : Step postgres s s') : Inv postgres s' := by
  cases hstep with
  | runner i s' hrunner =>
    cases hrunner with
    | construct r _ hadmitted hpc hfree => exact h.construct hadmitted hpc hfree
    | turn r r' text databases hi hturn hwaits hasked hmade => exact (h.turn hi hturn hwaits hasked hmade).2
  | others databases hleaves =>
    refine ⟨fun i r hi => ?_, h.single⟩
    have hold := h.known i r hi
    cases hlocked : r.locked with
    | true =>
      change Known _ r (databases r.name)
      rw [hleaves r.name ⟨i, r, hi, hlocked, rfl⟩]
      exact hold
    | false => exact hold.elsewhere hlocked _

theorem Reached.inv (h : Reached postgres s) : Inv postgres s := by
  refine h.invariant ?_ fun s t hinv hstep => hinv.step hstep
  rintro _ ⟨databases, rfl⟩
  constructor
  · intro i r hi
    cases hi
  · intro i j r r' hi
    cases hi

/-- **A runner touches only its own.** In every run of any number of runners, two that hold the lock of a name are one,
and a statement changes no database but that of the runner's own name, which is not its source's; it drops none that is
a template, of another role or without the mark, in `Drop` none but the one the constructor returned, and it marks none
but the clone that it made under the lock. When the constructor returns, what it names is there, and its own. -/
theorem step_owned (h : Reached postgres s) {i : ι} (hstep : RunnerStep postgres i s s') {r r' : RunnerDatabase}
    (hi : s.runners i = some r) (hi' : s'.runners i = some r') :
    (∀ j rj, s.runners j = some rj → r.locked = true → rj.locked = true → rj.name = r.name → j = i) ∧
    r.name ≠ r.source ∧ r.name ≠ maintenance ∧
    Changed r s.databases s'.databases ∧
    (r.pc.critical = true → r.pc ≠ .findHeld → r.pc ≠ .dropHeld → r'.pc = .held →
      ∃ database, s'.databases r.name = some database ∧ Owns r database ∧ r'.identity = natText database.oid) := by
  have hinv := h.inv
  obtain ⟨-, -, -, -, hsource, hmaintenance⟩ := (hinv.known i r hi).admitted
  refine ⟨fun j rj hj hr hrj hname => hinv.single j i rj r hj hi hrj hr (by rw [hname]), hsource, hmaintenance, ?_⟩
  cases hstep with
  | construct _ habsent =>
    rw [habsent] at hi
    cases hi
  | turn before after text databases hbefore hturn hwaits hasked hmade =>
    rw [hi, Option.some.injEq] at hbefore
    subst hbefore
    change Function.update s.runners i (some after) i = some r' at hi'
    rw [Function.update_self, Option.some.injEq] at hi'
    subst hi'
    refine ⟨(hinv.turn hi hturn hwaits hasked hmade).1, fun hpc hfree hdrop hheld => ?_⟩
    have hsilent : text = none := by
      cases hturn with
      | drop | create | comment => cases hheld
      | dropHeld hd => exact absurd hd hdrop
      | _ => rfl
    subst hsilent
    cases hasked
    exact turn_returns hturn hpc hfree hdrop hheld

/-- A server whose locks are told apart by the lengths of their names. -/
def plainServer : Postgres where
  hashed name := name.length
  maxIdentifierLength := 63
  cut name := name.take 63
  cut_short _ := List.take_of_length_le

/-- A source, and a clone that an earlier runner made of it. -/
def cloneAndSource (name : Bytes) : Option Database :=
  if name = ascii "t" then some ⟨7, false, ascii "me", runnerMarker ++ natText 5⟩
  else if name = ascii "s" then some ⟨5, true, ascii "me", []⟩ else none

/-- A runner that wants the clone fresh, before a statement. -/
def freshRunner (pc : Pc) (locked : Bool) (marker : Bytes) : RunnerDatabase :=
  {role := ascii "me", source := ascii "s", name := ascii "t", fresh := true, pc, locked, marker}

def alone (r : RunnerDatabase) : Server Unit := ⟨cloneAndSource, fun _ => some r⟩

theorem alone_step {r r' : RunnerDatabase}
    (hturn : Turn 63 (cloneAndSource r.name) (cloneAndSource r.source) r none r') (h : Reached plainServer (alone r)) :
    Reached plainServer (alone r') := by
  have hstep : RunnerStep plainServer () (alone r) ⟨cloneAndSource, Function.update (fun _ => some r) () (some r')⟩ := by
    refine .turn r r' none cloneAndSource rfl hturn ?_ rfl fun hpc => ?_
    · rintro hfree - ⟨_, other, hother, hlocked, -⟩
      cases hother
      rw [hfree] at hlocked
      cases hlocked
    · cases hturn <;> cases hpc
  have hsame : (Function.update (fun _ => some r) () (some r') : Unit → Option RunnerDatabase) = fun _ => some r' :=
    funext fun _ => rfl
  rw [hsame] at hstep
  exact h.step (.runner () _ hstep)

theorem alone_drop : Reached plainServer (alone (freshRunner .drop true (runnerMarker ++ natText 5))) := by
  have hstart : Reached plainServer (alone (freshRunner .checkName false [])) := by
    have hfirst : Reached plainServer ({databases := cloneAndSource} : Server Unit) := ⟨_, ⟨_, rfl⟩, .refl⟩
    have hstep := hfirst.step (.runner () _ (.construct (freshRunner .checkName false []) rfl
      (by unfold RunnerDatabase.Admitted; decide) rfl rfl))
    have hsame : (Function.update (fun _ => none) () (some (freshRunner .checkName false [])) :
        Unit → Option RunnerDatabase) = fun _ => some (freshRunner .checkName false []) := funext fun _ => rfl
    rwa [hsame] at hstep
  have hlock := alone_step (.checkName rfl (by decide)) hstart
  have hfind := alone_step (.lockScratch rfl) hlock
  have hlook := alone_step (.findSource ⟨5, true, ascii "me", []⟩ rfl rfl) hfind
  exact alone_step (.replaced ⟨7, false, ascii "me", runnerMarker ++ natText 5⟩ rfl rfl
    (mayReplace_iff.mpr ⟨rfl, rfl, rfl⟩) rfl) hlook

theorem alone_dropped : RunnerStep plainServer () (alone (freshRunner .drop true (runnerMarker ++ natText 5)))
    ⟨Function.update cloneAndSource (ascii "t") none,
      Function.update (fun _ => some (freshRunner .drop true (runnerMarker ++ natText 5))) ()
        (some (freshRunner .create true (runnerMarker ++ natText 5)))⟩ :=
  .turn _ _ (some (dropText (ascii "t"))) _ rfl (.drop rfl) (fun hfree => by cases hfree)
    ⟨.drop (ascii "t"), readStatement_dropText rfl, .drop _ (by decide)⟩ (fun hpc => by cases hpc)

theorem step_owned_drop : Changed (freshRunner .drop true (runnerMarker ++ natText 5)) cloneAndSource
    (Function.update cloneAndSource (ascii "t") none) :=
  (step_owned alone_drop alone_dropped rfl rfl).2.2.2.1

/-- A step in which others leave a database alone. -/
inductive StepSparing (postgres : Postgres) (name : Bytes) (s : Server ι) : Server ι → Prop
  | runner (i : ι) (s' : Server ι) : RunnerStep postgres i s s' → StepSparing postgres name s s'
  | others (databases : Bytes → Option Database) :
    (∀ other, s.Locked postgres other → databases other = s.databases other) → databases name = s.databases name →
    StepSparing postgres name s {s with databases}

theorem StepSparing.step (h : StepSparing postgres name s s') : Step postgres s s' := by
  cases h with
  | runner i s' hrunner => exact .runner i s' hrunner
  | others databases hleaves => exact .others databases hleaves

/-- A database without the mark is there, and no runner is about to mark it. -/
structure Apart (s : Server ι) (name : Bytes) (database : Database) : Prop where
  found : s.databases name = some database
  unmarked : database.template = true ∨ ∀ source, database.comment ≠ runnerMarker ++ natText source
  uncommented : ∀ i r, s.runners i = some r → r.name = name → r.pc ≠ .comment

theorem Apart.turn {database : Database} (h : Apart s name database) {i : ι} {r r' : RunnerDatabase}
    {text : Option Bytes} {databases : Bytes → Option Database} (hi : s.runners i = some r)
    (hturn : Turn postgres.maxIdentifierLength (s.databases r.name) (s.databases r.source) r text r')
    (hcreates : r'.pc = .comment → s.databases r.name = none)
    (hchanged : Changed r s.databases databases) :
    Apart (⟨databases, Function.update s.runners i (some r')⟩ : Server ι) name database := by
  refine ⟨?_, h.unmarked, fun j rj hj hname => ?_⟩
  · by_cases hname : name = r.name
    · subst hname
      cases hchanged with
      | same => exact h.found
      | dropped dropped source _ hfound howns hmarked =>
        rw [h.found, Option.some.injEq] at hfound
        subst hfound
        rcases h.unmarked with htemplate | hunmarked
        · rw [howns.plain] at htemplate
          cases htemplate
        · exact absurd hmarked (hunmarked source)
      | created _ _ habsent =>
        rw [h.found] at habsent
        cases habsent
      | commented _ _ hpc => exact absurd hpc (h.uncommented i r hi rfl)
    · exact (hchanged.elsewhere hname).trans h.found
  · rcases update_cases hj with ⟨rfl, rfl⟩ | ⟨-, hbefore⟩
    · intro hpc
      rw [← hturn.name_eq.1, hname, h.found] at hcreates
      cases hcreates hpc
    · exact h.uncommented j rj hbefore hname

/-- **What does not carry the mark outlives every run**: whatever any number of runners do, in any order, a database
that is a template or has no runner's comment stays as it is while others leave it alone. -/
theorem unmarked_outlives (h : Reached postgres s) {name : Bytes} {database : Database}
    (hapart : Apart s name database) (hrun : Relation.ReflTransGen (StepSparing postgres name) s s') :
    s'.databases name = some database := by
  suffices hkept : Reached postgres s' ∧ Apart s' name database from hkept.2.found
  induction hrun with
  | refl => exact ⟨h, hapart⟩
  | tail _ hlast ih =>
    obtain ⟨hreached, hbefore⟩ := ih
    refine ⟨hreached.step hlast.step, ?_⟩
    cases hlast with
    | others databases _ hspares => exact ⟨hspares.trans hbefore.found, hbefore.unmarked, hbefore.uncommented⟩
    | runner i _ hrunner =>
      cases hrunner with
      | construct r _ _ hpc =>
        refine ⟨hbefore.found, hbefore.unmarked, fun j rj hj hname => ?_⟩
        rcases update_cases hj with ⟨-, rfl⟩ | ⟨-, hold⟩
        · rw [hpc]
          decide
        · exact hbefore.uncommented j rj hold hname
      | turn r r' text databases hi hturn hwaits hasked hmade =>
        refine hbefore.turn hi hturn (fun hpc => ?_) (hreached.inv.turn hi hturn hwaits hasked hmade).1
        cases hturn with
        | create _ hcreate =>
          have hfits := (hreached.inv.known i r hi).fits (by rw [hcreate]; decide) (by rw [hcreate]; decide)
          obtain ⟨-, habsent, -⟩ := asked_create (postgres.cut_short _ hfits) hasked
          exact habsent
        | _ => cases hpc

theorem source_outlives : Function.update cloneAndSource (ascii "t") none (ascii "s") = some ⟨5, true, ascii "me", []⟩ :=
  have hapart : Apart (alone (freshRunner .drop true (runnerMarker ++ natText 5))) (ascii "s")
      ⟨5, true, ascii "me", []⟩ := by
    refine ⟨rfl, .inl rfl, fun _ r hr hname => ?_⟩
    cases hr
    exact absurd hname (by decide)
  unmarked_outlives alone_drop hapart (.single (.runner () _ alone_dropped))

end

end Agiru.Runner
