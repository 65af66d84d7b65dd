import Agiru.Filter.Literal

/-! What the wildcard loop takes.

The loop goes back to its last star alone. That is enough: what an earlier star could still take,
the later one takes as well. A star of the pattern that stands by a star of the value is read as a
letter, so it takes this one character (`loopTakes`). -/
namespace Agiru.Filter
open Bytes
open Ch

variable {pattern : Bytes}

/-- What the loop takes: a star of the pattern by a star of the value is a letter like any other. -/
def loopTakes : Bytes → Bytes → Bool
  | [], value => value.isEmpty
  | p :: ps, [] => p = star && loopTakes ps []
  | p :: ps, v :: vs =>
    if p = question ∨ lower p = lower v then loopTakes ps vs
    else p = star && (v :: vs).tails.any (loopTakes ps)

section
variable {p v : UInt8} {ps vs : Bytes}

theorem loopTakes_match (h : p = question ∨ lower p = lower v) :
    loopTakes (p :: ps) (v :: vs) = loopTakes ps vs := by
  rw [loopTakes, if_pos h]

theorem loopTakes_mismatch (h : ¬ (p = question ∨ lower p = lower v)) (hstar : p ≠ star) :
    loopTakes (p :: ps) (v :: vs) = false := by
  rw [loopTakes, if_neg h, decide_eq_false hstar, Bool.false_and]

theorem loopTakes_many (h : ¬ (star = question ∨ lower star = lower v)) :
    loopTakes (star :: ps) (v :: vs) = true ↔
      ∃ k ≤ (v :: vs).length, loopTakes ps ((v :: vs).drop k) = true := by
  rw [loopTakes, if_neg h, decide_eq_true rfl, Bool.true_and, List.any_eq_true]
  constructor
  · rintro ⟨suffix, hsuffix, htakes⟩
    have hdrop := List.suffix_iff_eq_drop.mp ((List.mem_tails _ _).mp hsuffix)
    exact ⟨(v :: vs).length - suffix.length, Nat.sub_le _ _, by rwa [← hdrop]⟩
  · rintro ⟨k, -, htakes⟩
    exact ⟨(v :: vs).drop k, (List.mem_tails _ _).mpr (List.drop_suffix _ _), htakes⟩

/-- A star takes some of the value, whatever it stands by. -/
theorem loopTakes_star {value : Bytes} (h : loopTakes (star :: ps) value = true) :
    ∃ k ≤ value.length, loopTakes ps (value.drop k) = true := by
  cases value with
  | nil => exact ⟨0, Nat.le_refl 0, (Bool.and_eq_true_iff.mp h).2⟩
  | cons v vs =>
    by_cases hmatch : star = question ∨ lower star = lower v
    · rw [loopTakes_match hmatch] at h
      exact ⟨1, Nat.succ_le_succ (Nat.zero_le _), h⟩
    · exact (loopTakes_many hmatch).mp h

end

theorem loopTakes_nil : loopTakes pattern [] = pattern.all (· = star) := by
  induction pattern with
  | nil => rfl
  | cons p ps ih => rw [loopTakes, ih, List.all_cons]

/-- Letter by letter, as the loop went along: a star of the pattern stood by a star. -/
def Beside (begun passed : Bytes) : Prop :=
  List.Forall₂ (fun p v => p = star → lower p = lower v) begun passed

/-- Where the last star lets the match start again: what was begun behind it, and what it passed. -/
def Began (back : Bytes × Bytes) (pattern value : Bytes) : Prop :=
  ∃ begun passed, Beside begun passed ∧ back.1 = begun ++ pattern ∧ back.2 = passed ++ value

/-- What the last star takes with one character more, or with several. -/
def Again (back : Bytes × Bytes) : Prop :=
  ∃ k, 1 ≤ k ∧ k ≤ back.2.length ∧ loopTakes back.1 (back.2.drop k) = true

theorem again_cons {c : UInt8} {rest : Bytes} :
    Again (pattern, c :: rest) ↔ loopTakes pattern rest = true ∨ Again (pattern, rest) := by
  constructor
  · rintro ⟨k, hk, hle, htakes⟩
    obtain ⟨k, rfl⟩ := Nat.exists_eq_succ_of_ne_zero (Nat.pos_iff_ne_zero.mp hk)
    cases k with
    | zero => exact .inl htakes
    | succ k => exact .inr ⟨k + 1, Nat.succ_pos k, Nat.le_of_succ_le_succ hle, htakes⟩
  · rintro (htakes | ⟨k, hk, hle, htakes⟩)
    · exact ⟨1, Nat.le_refl 1, Nat.succ_le_succ (Nat.zero_le _), htakes⟩
    · exact ⟨k + 1, Nat.succ_pos k, Nat.succ_le_succ hle, htakes⟩

/-- What was begun, taken from a later place on, leaves the rest of the pattern no more than it has.
A star that was a letter may take nothing there, but the place then catches up by one only. -/
theorem Beside.rest {begun passed value : Bytes} (h : Beside begun passed) (k : Nat)
    (htakes : loopTakes (begun ++ pattern) ((passed ++ value).drop k) = true) :
    ∃ j, loopTakes pattern (value.drop j) = true := by
  induction h generalizing k with
  | nil => exact ⟨k, htakes⟩
  | @cons p v begun passed hpv _ ih =>
    rw [List.cons_append, List.cons_append] at htakes
    cases k with
    | zero =>
      by_cases hmatch : p = question ∨ lower p = lower v
      · rw [List.drop_zero, loopTakes_match hmatch] at htakes
        exact ih 0 htakes
      · have hstar : p ≠ star := fun heq => hmatch (.inr (hpv heq))
        rw [List.drop_zero, loopTakes_mismatch hmatch hstar] at htakes
        cases htakes
    | succ k =>
      rw [List.drop_succ_cons] at htakes
      by_cases hstar : p = star
      · obtain ⟨j, -, hrest⟩ := loopTakes_star (hstar ▸ htakes)
        rw [List.drop_drop] at hrest
        exact ih (k + j) hrest
      · cases htext : (passed ++ value).drop k with
        | nil =>
          rw [htext, loopTakes, decide_eq_false hstar, Bool.false_and] at htakes
          cases htakes
        | cons c rest =>
          by_cases hmatch : p = question ∨ lower p = lower c
          · rw [htext, loopTakes_match hmatch] at htakes
            refine ih (k + 1) ?_
            rwa [← List.drop_drop, htext]
          · rw [htext, loopTakes_mismatch hmatch hstar] at htakes
            cases htakes

theorem Again.rest {back : Bytes × Bytes} {value : Bytes} (h : Again back)
    (hbegan : Began back pattern value) : ∃ j, loopTakes pattern (value.drop j) = true := by
  obtain ⟨begun, passed, hbeside, hpattern, hpassed⟩ := hbegan
  obtain ⟨k, -, -, htakes⟩ := h
  rw [hpattern, hpassed] at htakes
  exact hbeside.rest k htakes

/-! ### The steps of the loop -/

section
variable {p v c : UInt8} {ps vs again rest : Bytes} {back : Option (Bytes × Bytes)}

theorem wildcardFrom_match (hmatch : p = question ∨ lower p = lower v)
    (h : ∀ at_ ∈ back, (v :: vs).length ≤ at_.2.length) (h' : ∀ at_ ∈ back, vs.length ≤ at_.2.length) :
    wildcardFrom (p :: ps) (v :: vs) back h = wildcardFrom ps vs back h' := by
  rw [wildcardFrom.eq_def]
  dsimp only
  rw [if_pos hmatch]

theorem wildcardFrom_star (hmatch : ¬ (star = question ∨ lower star = lower v))
    (h : ∀ at_ ∈ back, (v :: vs).length ≤ at_.2.length) :
    wildcardFrom (star :: ps) (v :: vs) back h = wildcardFrom ps (v :: vs) (some (ps, v :: vs)) (by simp) := by
  rw [wildcardFrom.eq_def]
  dsimp only
  rw [if_neg hmatch, if_pos rfl]

/-- The loop is stuck at a character that is no star and does not match, and at the pattern's end. -/
def Stuck (v : UInt8) : Bytes → Prop
  | [] => True
  | p :: _ => ¬ (p = question ∨ lower p = lower v) ∧ p ≠ star

theorem Stuck.takes (h : Stuck v pattern) : loopTakes pattern (v :: vs) = false := by
  cases pattern with
  | nil => rfl
  | cons p ps => exact loopTakes_mismatch h.1 h.2

theorem Stuck.goesBack (hstuck : Stuck v pattern)
    (h : ∀ at_ ∈ some (again, c :: rest), (v :: vs).length ≤ at_.2.length) :
    wildcardFrom pattern (v :: vs) (some (again, c :: rest)) h =
      wildcardFrom again rest (some (again, rest)) (by simp) := by
  rw [wildcardFrom.eq_def]
  cases pattern with
  | nil => rfl
  | cons p ps =>
    dsimp only
    rw [if_neg hstuck.1, if_neg hstuck.2]

theorem Stuck.fails (hstuck : Stuck v pattern)
    (h : ∀ at_ ∈ back, (v :: vs).length ≤ at_.2.length) (hnone : ∀ again c rest, back ≠ some (again, c :: rest)) :
    wildcardFrom pattern (v :: vs) back h = false ∧ ¬ ∃ at_ ∈ back, Again at_ := by
  obtain rfl : back = none := by
    cases back with
    | none => rfl
    | some at_ =>
      obtain ⟨again, rest⟩ := at_
      cases rest with
      | nil => exact absurd (h _ rfl) (Nat.not_succ_le_zero _)
      | cons c rest => exact absurd rfl (hnone again c rest)
  refine ⟨?_, by simp⟩
  rw [wildcardFrom.eq_def]
  cases pattern with
  | nil => rfl
  | cons p ps =>
    dsimp only
    rw [if_neg hstuck.1, if_neg hstuck.2]

end

/-- The loop takes what the pattern takes, or what its last star still can. -/
theorem wildcardFrom_iff (pattern value : Bytes) (back : Option (Bytes × Bytes))
    (h : ∀ at_ ∈ back, value.length ≤ at_.2.length) (hback : ∀ at_ ∈ back, Began at_ pattern value) :
    wildcardFrom pattern value back h = true ↔ loopTakes pattern value = true ∨ ∃ at_ ∈ back, Again at_ := by
  have hstart : ∀ pattern value : Bytes, Began (pattern, value) pattern value := fun pattern value =>
    ⟨[], [], .nil, rfl, rfl⟩
  have hgoes : ∀ {v : UInt8} {pattern vs again rest : Bytes} {c : UInt8}, Stuck v pattern →
      ∀ h : ∀ at_ ∈ some (again, c :: rest), (v :: vs).length ≤ at_.2.length,
        ((∀ at_ ∈ some (again, rest), Began at_ again rest) →
          (wildcardFrom again rest (some (again, rest)) (by simp) = true ↔
            loopTakes again rest = true ∨ ∃ at_ ∈ some (again, rest), Again at_)) →
        (wildcardFrom pattern (v :: vs) (some (again, c :: rest)) h = true ↔
          loopTakes pattern (v :: vs) = true ∨ ∃ at_ ∈ some (again, c :: rest), Again at_) := by
    intro v pattern vs again rest c hstuck h ih
    rw [hstuck.goesBack, hstuck.takes, ih]
    · simp [again_cons]
    · intro at_ hat
      obtain rfl := Option.some.inj hat
      exact hstart again rest
  induction pattern, value, back, h using wildcardFrom.induct with
  | case1 back rest h =>
    rw [wildcardFrom, ← loopTakes_nil]
    constructor
    · exact .inl
    · rintro (htakes | ⟨at_, hat, hagain⟩)
      · exact htakes
      · obtain ⟨j, hrest⟩ := hagain.rest (hback at_ hat)
        rwa [List.drop_nil] at hrest
  | case2 v vs p ps back h hmatch hle ih =>
    rw [wildcardFrom_match hmatch h (fun at_ hat => Nat.le_of_succ_le (h at_ hat)), loopTakes_match hmatch]
    apply ih
    intro at_ hat
    obtain ⟨begun, passed, hbeside, hpattern, hpassed⟩ := hback at_ hat
    refine ⟨begun ++ [p], passed ++ [v], ?_, ?_, ?_⟩
    · refine List.rel_append hbeside (.cons ?_ .nil)
      rintro rfl
      exact hmatch.resolve_left (by decide)
    · rw [hpattern, List.append_assoc]
      rfl
    · rw [hpassed, List.append_assoc]
      rfl
  | case3 v vs ps back h hle hmatch ih =>
    have hnext := ih (by
      intro at_ hat
      obtain rfl := Option.some.inj hat
      exact hstart ps (v :: vs))
    have hmany : loopTakes (star :: ps) (v :: vs) = true ↔
        loopTakes ps (v :: vs) = true ∨ Again (ps, v :: vs) := by
      rw [loopTakes_many hmatch]
      constructor
      · rintro ⟨k, hk, htakes⟩
        rcases Nat.eq_zero_or_pos k with rfl | hpos
        · exact .inl htakes
        · exact .inr ⟨k, hpos, hk, htakes⟩
      · rintro (htakes | ⟨k, -, hk, htakes⟩)
        · exact ⟨0, Nat.zero_le _, htakes⟩
        · exact ⟨k, hk, htakes⟩
    rw [wildcardFrom_star hmatch h, hmany]
    refine hnext.trans ?_
    constructor
    · rintro (htakes | ⟨at_, hat, hagain⟩)
      · exact .inl (.inl htakes)
      · obtain rfl := Option.some.inj hat
        exact .inl (.inr hagain)
    · rintro ((htakes | hagain) | ⟨at_, hat, hagain⟩)
      · exact .inl htakes
      · exact .inr ⟨_, rfl, hagain⟩
      · -- what an earlier star could take, this one takes
        obtain ⟨k, hearlier⟩ := hagain.rest (hback at_ hat)
        obtain ⟨j, -, htakes⟩ := loopTakes_star hearlier
        rw [List.drop_drop] at htakes
        have hsame : (v :: vs).drop (min (k + j) (v :: vs).length) = (v :: vs).drop (k + j) := by
          rcases Nat.le_total (k + j) (v :: vs).length with hle | hle
          · rw [Nat.min_eq_left hle]
          · rw [Nat.min_eq_right hle, List.drop_length, List.drop_eq_nil_of_le hle]
        have htaken : loopTakes ps ((v :: vs).drop (min (k + j) (v :: vs).length)) = true := by
          rwa [hsame]
        rcases hmany.mp ((loopTakes_many hmatch).mpr ⟨_, Nat.min_le_right _ _, htaken⟩) with hnow | hlater
        · exact .inl hnow
        · exact .inr ⟨_, rfl, hlater⟩
  | case4 v vs p ps hmatch hstar again c rest h hle ih =>
    have hstuck : Stuck v (p :: ps) := ⟨hmatch, hstar⟩
    exact hgoes hstuck h ih
  | case5 v vs p ps back hmatch hstar h hnone hle =>
    have hstuck : Stuck v (p :: ps) := ⟨hmatch, hstar⟩
    obtain ⟨hfalse, hnot⟩ := hstuck.fails h fun again c rest heq => by
      subst heq
      exact hnone again c rest h rfl HEq.rfl
    rw [hfalse, hstuck.takes]
    exact iff_of_false Bool.false_ne_true fun h => h.elim Bool.false_ne_true hnot
  | case6 v vs again c rest h hle ih =>
    have hstuck : Stuck v [] := trivial
    exact hgoes hstuck h ih
  | case7 back v vs h hnone hle =>
    have hstuck : Stuck v [] := trivial
    obtain ⟨hfalse, hnot⟩ := hstuck.fails h fun again c rest heq => by
      subst heq
      exact hnone again c rest h rfl HEq.rfl
    rw [hfalse, hstuck.takes]
    exact iff_of_false Bool.false_ne_true fun h => h.elim Bool.false_ne_true hnot

theorem wildcardMatch_eq_loop (pattern value : Bytes) : wildcardMatch pattern value = loopTakes pattern value := by
  rw [Bool.eq_iff_iff, wildcardMatch, wildcardFrom_iff pattern value none (by simp) (by simp)]
  simp

/-! ### What a wildcard pattern means.

A value matches when it is cut into runs, one for each character of the pattern, that the characters
stand for. The loop reads a star of the pattern as a letter where a star of the value comes next, so it
finds only the cuts that give the star this one character. -/

/-- What a character of a pattern stands for: any run, one character, or itself in either letter case. -/
def StandsFor (p : UInt8) (run : Bytes) : Prop :=
  p = star ∨ ∃ c, run = [c] ∧ (p = question ∨ lower p = lower c)

/-- The runs of a value for each character of a pattern. -/
structure Cut (pattern value : Bytes) (runs : List Bytes) : Prop where
  each : List.Forall₂ StandsFor pattern runs
  whole : runs.flatten = value

/-- `value` matches `pattern`. -/
def Globs (pattern value : Bytes) : Prop := ∃ runs, Cut pattern value runs

/-- Every star that a star of the value follows takes this one character. -/
def StarsAlone : Bytes → List Bytes → Prop
  | p :: ps, run :: runs =>
    (p = star → (run ++ runs.flatten).head? = some star → run = [star]) ∧ StarsAlone ps runs
  | _, _ => True

section
variable {p : UInt8} {ps value : Bytes}

theorem Cut.cons {run : Bytes} {runs : List Bytes} (hrun : StandsFor p run) (h : Cut ps value runs) :
    Cut (p :: ps) (run ++ value) (run :: runs) := by
  constructor
  · exact .cons hrun h.each
  · rw [List.flatten_cons, h.whole]

theorem Cut.uncons {runs : List Bytes} (h : Cut (p :: ps) value runs) :
    ∃ run rest, runs = run :: rest ∧ StandsFor p run ∧ value = run ++ rest.flatten ∧
      Cut ps rest.flatten rest := by
  obtain ⟨heach, hwhole⟩ := h
  cases heach with
  | @cons _ run _ rest hrun hrest =>
    refine ⟨run, rest, rfl, hrun, ?_, hrest, rfl⟩
    rw [← hwhole, List.flatten_cons]

end

theorem letter_of_mismatch {p v : UInt8} {run rest : Bytes} {vs : Bytes}
    (hmatch : ¬ (p = question ∨ lower p = lower v)) (hrun : StandsFor p run)
    (hwhole : v :: vs = run ++ rest) : p = star := by
  rcases hrun with hstar | ⟨c, hrun, hletter⟩
  · exact hstar
  · rw [hrun] at hwhole
    obtain ⟨hv, -⟩ := List.cons.inj hwhole
    exact absurd (hv ▸ hletter) hmatch

/-- The loop finds the cuts that leave every star alone. -/
theorem loopTakes_iff (pattern value : Bytes) :
    loopTakes pattern value = true ↔ ∃ runs, Cut pattern value runs ∧ StarsAlone pattern runs := by
  induction pattern generalizing value with
  | nil =>
    constructor
    · intro h
      rw [List.isEmpty_iff.mp h]
      exact ⟨[], ⟨.nil, rfl⟩, trivial⟩
    · intro h
      obtain ⟨runs, ⟨heach, hwhole⟩, -⟩ := h
      cases heach
      rw [← hwhole]
      rfl
  | cons p ps ih =>
    cases value with
    | nil =>
      constructor
      · intro h
        obtain ⟨hstar, hrest⟩ := Bool.and_eq_true_iff.mp h
        obtain ⟨runs, hcut, halone⟩ := (ih []).mp hrest
        have hnone : ([] ++ runs.flatten).head? ≠ some star := by
          rw [List.nil_append, hcut.whole]
          simp
        have hcut := hcut.cons (.inl (of_decide_eq_true hstar) : StandsFor p [])
        exact ⟨[] :: runs, hcut, fun _ hhead => absurd hhead hnone, halone⟩
      · intro h
        obtain ⟨runs, hcut, halone⟩ := h
        obtain ⟨run, rest, rfl, hrun, hwhole, htail⟩ := hcut.uncons
        obtain ⟨rfl, hrest⟩ := List.append_eq_nil_iff.mp hwhole.symm
        rw [hrest] at htail
        have hstar : p = star := by
          rcases hrun with hstar | ⟨c, hc, -⟩
          · exact hstar
          · cases hc
        rw [loopTakes, decide_eq_true hstar, (ih []).mpr ⟨rest, htail, halone.2⟩]
        rfl
    | cons v vs =>
      by_cases hmatch : p = question ∨ lower p = lower v
      · rw [loopTakes_match hmatch, ih vs]
        constructor
        · intro h
          obtain ⟨runs, hcut, halone⟩ := h
          refine ⟨[v] :: runs, hcut.cons (.inr ⟨v, rfl, hmatch⟩), ?_, halone⟩
          intro _ hhead
          rw [Option.some.inj hhead]
        · intro h
          obtain ⟨runs, hcut, halone⟩ := h
          obtain ⟨run, rest, rfl, hrun, hwhole, htail⟩ := hcut.uncons
          have hone : run = [v] := by
            rcases hrun with hstar | ⟨c, hc, -⟩
            · -- a star reads the value's character, so it is a star too
              have hv : v = star := by
                subst hstar
                have hletter := hmatch.resolve_left (by decide)
                exact (lower_eq_iff (by decide) (by decide)).mp hletter.symm
              rw [halone.1 hstar (by rw [← hwhole, hv]; rfl), hv]
            · rw [hc] at hwhole ⊢
              rw [(List.cons.inj hwhole).1]
          rw [hone] at hwhole
          obtain ⟨-, rfl⟩ := List.cons.inj hwhole
          exact ⟨rest, htail, halone.2⟩
      · by_cases hstar : p = star
        · subst hstar
          have hv : v ≠ star := fun heq => hmatch (.inr (congrArg lower heq.symm))
          rw [loopTakes_many hmatch]
          constructor
          · intro h
            obtain ⟨k, -, htakes⟩ := h
            obtain ⟨runs, hcut, halone⟩ := (ih _).mp htakes
            have hcut := hcut.cons (.inl rfl : StandsFor star ((v :: vs).take k))
            rw [List.take_append_drop] at hcut
            refine ⟨_, hcut, ?_, halone⟩
            intro _ hhead
            have hwhole := hcut.whole
            rw [List.flatten_cons] at hwhole
            rw [hwhole] at hhead
            exact absurd (Option.some.inj hhead) hv
          · intro h
            obtain ⟨runs, hcut, halone⟩ := h
            obtain ⟨run, rest, rfl, -, hwhole, htail⟩ := hcut.uncons
            refine ⟨run.length, ?_, (ih _).mpr ⟨rest, ?_, halone.2⟩⟩
            · rw [hwhole, List.length_append]
              exact Nat.le_add_right _ _
            · rwa [hwhole, List.drop_left]
        · rw [loopTakes_mismatch hmatch hstar]
          apply iff_of_false Bool.false_ne_true
          intro h
          obtain ⟨runs, hcut, -⟩ := h
          obtain ⟨run, rest, rfl, hrun, hwhole, -⟩ := hcut.uncons
          exact hstar (letter_of_mismatch hmatch hrun hwhole)

/-- What the loop takes matches. -/
theorem Globs.of_wildcardMatch {value : Bytes} (h : wildcardMatch pattern value = true) : Globs pattern value := by
  rw [wildcardMatch_eq_loop, loopTakes_iff] at h
  obtain ⟨runs, hcut, -⟩ := h
  exact ⟨runs, hcut⟩

/-- **When the loop decides the match.** It takes nothing that does not match, and misses a value only
where no cut leaves each star of the pattern by a star of the value with just this one. -/
theorem wildcardMatch_globs (pattern value : Bytes) :
    (wildcardMatch pattern value = true ↔ Globs pattern value) ↔
      (Globs pattern value → ∃ runs, Cut pattern value runs ∧ StarsAlone pattern runs) := by
  rw [wildcardMatch_eq_loop, ← loopTakes_iff]
  constructor
  · exact fun h => h.mpr
  · intro h
    refine ⟨fun htakes => Globs.of_wildcardMatch ?_, h⟩
    rw [wildcardMatch_eq_loop, htakes]

/-- A value that begins with a star is not taken by the pattern for any value. -/
theorem wildcardMatch_misses :
    ¬ ∀ pattern value : Bytes, (∀ c ∈ value, c < 128) →
      (wildcardMatch pattern value = true ↔ Globs pattern value) := by
  intro h
  have htakes := (h (ascii "*") (ascii "*x") (by decide +kernel)).mpr ⟨[ascii "*x"], .cons (.inl rfl) .nil, rfl⟩
  rw [wildcardMatch_eq_loop] at htakes
  exact absurd htakes (by decide +kernel)

end Agiru.Filter
