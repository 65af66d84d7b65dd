import Agiru.Storage.DateFormula

/-! Which formulas mean what was entered.

White space between two terms is not spelled, so a term without a sign may be taken for a part of the term
before it. `runsInto` says where, and the formula that is read of a spelling has the terms of the tokens
that spell it exactly where none does. -/
namespace Agiru.Storage
open Bytes

/-- A letter alone. -/
def Token.bare (token : Token) : Bool := token.piece = .amount && token.number = []

/-- The term behind takes, of the next one, what it begins with. -/
def Token.runsInto (first second : Token) : Bool :=
  second.sign = none &&
    ((second.piece = .amount && second.number ≠ [] &&
        (first.piece = .weekday || first.piece = .week || first.piece = .dayOfMonth ||
          (first.bare && (first.unit = .day || first.unit = .week)))) ||
      (second.piece = .dayOfMonth && first.bare && first.unit = .week))

/-- No term runs into the next. -/
abbrev Apart (tokens : List Token) : Prop := tokens.IsChain fun first second => first.runsInto second = false

/-- A term that does not run into what is behind it. -/
def Free (first : Token) (tail : List Token) : Prop := ∀ next ∈ tail.head?, first.runsInto next = false

instance (first : Token) (tail : List Token) : Decidable (Free first tail) :=
  inferInstanceAs (Decidable (∀ next ∈ tail.head?, first.runsInto next = false))

theorem apart_cons {first : Token} {tail : List Token} : Apart (first :: tail) ↔ Free first tail ∧ Apart tail := by
  cases tail with
  | nil | cons next rest => simp [Free]

/-! ### What a term begins with -/

/-- A spelling that begins with a digit begins with a number. -/
theorem digitAt_rendered {tail : List Token} (hsound : ∀ token ∈ tail, token.Sound)
    (h : digitAt (rendered tail .invariant) = true) :
    ∃ next rest, tail = next :: rest ∧ next.sign = none ∧ next.piece = .amount ∧ next.number ≠ [] := by
  cases tail with
  | nil => cases h
  | cons next rest =>
    obtain ⟨hnext, -⟩ := List.forall_mem_cons.mp hsound
    refine ⟨next, rest, rfl, ?_⟩
    rw [rendered_cons] at h
    obtain ⟨piece, sign, number, unit⟩ := next
    cases sign with
    | some sign => cases sign <;> cases h
    | none =>
      cases piece with
      | amount =>
        refine ⟨rfl, rfl, ?_⟩
        intro hnil
        dsimp only at hnil
        subst hnil
        cases unit <;> cases h
      | period | weekday | week | dayOfMonth => cases h

theorem not_digitAt_of_free {first : Token} {tail : List Token} (hsound : ∀ token ∈ tail, token.Sound)
    (hfree : Free first tail)
    (hfirst : first.piece = .weekday ∨ first.piece = .week ∨ first.piece = .dayOfMonth ∨
      (first.bare = true ∧ (first.unit = .day ∨ first.unit = .week))) :
    digitAt (rendered tail .invariant) = false := by
  by_contra hdigit
  obtain ⟨next, rest, rfl, hsign, hpiece, hnumber⟩ :=
    digitAt_rendered hsound (Bool.not_eq_false _ ▸ hdigit)
  have hruns := hfree next rfl
  rw [Token.runsInto, hsign, hpiece] at hruns
  rcases hfirst with heq | heq | heq | ⟨hbare, heq | heq⟩ <;> simp_all

/-- Behind a bare `W` no weekday stands. -/
theorem not_weekday_of_apart {sign : Option Sign} {number : Bytes} {tail : List Token}
    (hsound : ∀ token ∈ tail, token.Sound) (hapart : Apart (⟨.amount, sign, number, .week⟩ :: tail))
    (hbare : number = []) :
    takeWeekday .invariant sign (87 :: rendered tail .invariant) = none := by
  rw [takeWeekday_cons, if_neg]
  intro hweekday
  obtain ⟨-, hday, hdigit⟩ := hweekday
  cases tail with
  | nil => cases hdigit
  | cons next rest =>
    obtain ⟨hnext, hrest⟩ := List.forall_mem_cons.mp hsound
    obtain ⟨hfree, hnexts⟩ := apart_cons.mp hapart
    have hruns := hfree next rfl
    subst hbare
    rw [rendered_cons] at hday hdigit
    obtain ⟨piece, nextSign, digits, unit⟩ := next
    cases nextSign with
    | some nextSign => cases nextSign <;> cases hday
    | none =>
      cases piece with
      | period | weekday | week => cases hday
      | dayOfMonth => cases hruns
      | amount =>
        cases digits with
        | cons c digits =>
          have hc := hnext.digits c List.mem_cons_self
          exact absurd (by simpa [signText, Token.body] using hday) (folded_digit hc).2.2
        | nil =>
          cases unit with
          | day =>
            have hnone := @not_digitAt_of_free ⟨.amount, none, [], .day⟩ rest hrest (apart_cons.mp hnexts).1
              (.inr (.inr (.inr ⟨rfl, .inl rfl⟩)))
            rw [show (signText none ++ Token.body ⟨.amount, none, [], .day⟩ .invariant ++
              rendered rest .invariant).tail = rendered rest .invariant from rfl, hnone] at hdigit
            cases hdigit
          | week | month | quarter | year => cases hday

/-! ### What is taken of a term -/

theorem takeDigits_number {number text : Bytes} (hdigits : Digits number) (h : digitAt text = false) :
    takeDigits (number ++ text) = (number, text) := by
  rw [takeDigits, List.takeWhile_append_of_pos hdigits, List.dropWhile_append_of_pos hdigits]
  cases text with
  | nil => rw [List.takeWhile_nil, List.dropWhile_nil, List.append_nil]
  | cons c text =>
    have hc : isDigit c = false := h
    rw [List.takeWhile_cons_of_neg (by simp [hc]), List.dropWhile_cons_of_neg (by simp [hc]), List.append_nil]

theorem digitAt_number {number : Bytes} (hdigits : Digits number) (hne : number ≠ []) (text : Bytes) :
    digitAt (number ++ text) = true := by
  obtain ⟨c, number, rfl⟩ := List.exists_cons_of_ne_nil hne
  exact hdigits c List.mem_cons_self

theorem amount_text (sign : Option Sign) (number : Bytes) (unit : DateUnit) (text : Bytes) :
    Token.body ⟨.amount, sign, number, unit⟩ .invariant ++ text = number ++ letterByte unit :: text := by
  rw [Token.body, letter_invariant, List.append_assoc]
  rfl

/-- A term that does not run into the next is taken as it stands, but for a bare `W` that a weekday's
letter and number follow. -/
theorem take_free {first : Token} {tail : List Token} (hfirst : first.Sound)
    (hsound : ∀ token ∈ tail, token.Sound) (hfree : Free first tail)
    (hweekday : first.bare = true → first.unit = .week →
      takeWeekday .invariant first.sign (87 :: rendered tail .invariant) = none) :
    ∃ taken, takeToken .invariant first.sign (first.body .invariant ++ rendered tail .invariant) =
        some (taken, rendered tail .invariant) ∧ taken.term = first.term := by
  obtain ⟨piece, sign, number, unit⟩ := first
  have hdigits := hfirst.digits
  cases piece with
  | period =>
    refine ⟨⟨.period, sign, [], unit⟩, ?_, rfl⟩
    have hbody : Token.body ⟨.period, sign, number, unit⟩ .invariant = [67, letterByte unit] := by
      rw [Token.body, letter_invariant]
      rfl
    rw [hbody]
    exact take_period sign unit _
  | weekday =>
    have hnone := not_digitAt_of_free hsound hfree (.inl rfl)
    have htake := take_weekday sign (digitAt_number hdigits (hfirst.numbered (by intro hnone; cases hnone)
        (by intro hnone; cases hnone)) (rendered tail .invariant))
    rw [selected, takeDigits_number hdigits hnone] at htake
    exact ⟨_, htake, rfl⟩
  | week =>
    have hnone := not_digitAt_of_free hsound hfree (.inr (.inl rfl))
    have htake := take_week sign (digitAt_number hdigits (hfirst.numbered (by intro hnone; cases hnone)
        (by intro hnone; cases hnone)) (rendered tail .invariant))
    rw [selected, takeDigits_number hdigits hnone] at htake
    exact ⟨_, htake, rfl⟩
  | dayOfMonth =>
    have hnone := not_digitAt_of_free hsound hfree (.inr (.inr (.inl rfl)))
    have htake := take_dayOfMonth sign
      (digitAt_number hdigits (hfirst.numbered (by intro hnone; cases hnone) (by intro hnone; cases hnone))
          (rendered tail .invariant))
    rw [selected, takeDigits_number hdigits hnone] at htake
    exact ⟨_, htake, rfl⟩
  | amount =>
    refine ⟨⟨.amount, sign, number, unit⟩, ?_, rfl⟩
    rw [amount_text]
    by_cases hne : number = []
    · have hbare : Token.bare ⟨.amount, sign, number, unit⟩ = true := by simp [Token.bare, hne]
      have hnone : unit = .week ∨ unit = .day → digitAt (rendered tail .invariant) = false := by
        intro hunit
        exact not_digitAt_of_free hsound hfree (.inr (.inr (.inr ⟨hbare, hunit.symm⟩)))
      have hletter : takeWeekday .invariant sign (letterByte unit :: rendered tail .invariant) = none := by
        by_cases hunit : unit = .week
        · rw [hunit]
          exact hweekday hbare hunit
        · rw [takeWeekday_cons, if_neg]
          intro hweek
          apply hunit
          have := hweek.1
          cases unit <;> first | rfl | cases this
      subst hne
      exact take_unit sign unit hletter hnone
    · exact take_amount sign hdigits hne unit _

/-- A letter that begins a spelling is read as a selector, or as one of its units. -/
theorem take_letter (sign : Option Sign) (unit : DateUnit) (text : Bytes) {taken : Token} {rest : Bytes}
    (h : takeToken .invariant sign (letterByte unit :: text) = some (taken, rest)) :
    taken.term.kind = .amount → taken.term.count = 1 := by
  intro hamount
  by_cases hweekday : takeWeekday .invariant sign (letterByte unit :: text) = none
  · by_cases hdigit : digitAt text = true
    · cases unit with
      | week =>
        rw [show letterByte .week = 87 from rfl, take_week sign hdigit] at h
        cases h
        cases hamount
      | day =>
        rw [show letterByte .day = 68 from rfl, take_dayOfMonth sign hdigit] at h
        cases h
        cases hamount
      | month =>
        rw [take_unit sign .month hweekday (by simp)] at h
        cases h
        rfl
      | quarter =>
        rw [take_unit sign .quarter hweekday (by simp)] at h
        cases h
        rfl
      | year =>
        rw [take_unit sign .year hweekday (by simp)] at h
        cases h
        rfl
    · rw [take_unit sign unit hweekday fun _ => by simpa using hdigit] at h
      cases h
      rfl
  · obtain ⟨found, hfound⟩ := Option.ne_none_iff_exists'.mp hweekday
    rw [takeToken, hfound] at h
    cases h
    rw [takeWeekday_cons] at hfound
    split at hfound
    · cases hfound
      cases hamount
    · cases hfound

/-- What is taken where a term is not read as it stands: another term, or one of the same value that left
the next one without its number, which was nought. -/
def Astray (first : Token) (tail : List Token) (taken : Token) (rest : Bytes) : Prop :=
  taken.term ≠ first.term ∨
    ∃ next later unit text, tail = next :: later ∧ next.term.kind = .amount ∧ next.term.count = 0 ∧
      rest = letterByte unit :: text

/-- A selector takes the number of the next term with its own. -/
theorem astray_selected {piece : Piece} (hpiece : piece = .weekday ∨ piece = .week ∨ piece = .dayOfMonth)
    {sign : Option Sign} {number more : Bytes} {unit next : DateUnit} (hdigits : Digits number)
    (hmore : Digits more) (hne : more ≠ []) {later : List Token} :
    Astray ⟨piece, sign, number, unit⟩ (⟨.amount, none, more, next⟩ :: later)
      (selected piece sign (number ++ (more ++ letterByte next :: rendered later .invariant))).1
      (selected piece sign (number ++ (more ++ letterByte next :: rendered later .invariant))).2 := by
  have hletter : digitAt (letterByte next :: rendered later .invariant) = false := by cases next <;> rfl
  have hboth : Digits (number ++ more) := hdigits.append hmore
  have htake := takeDigits_number hboth hletter
  rw [List.append_assoc] at htake
  rw [selected, htake]
  by_cases hzero : digitsValue more = 0
  · refine .inr ⟨_, later, next, rendered later .invariant, rfl, rfl, ?_, rfl⟩
    rw [Token.term]
    dsimp only
    rw [if_neg hne, hzero]
  · refine .inl ?_
    intro hterm
    have hcount : digitsValue (number ++ more) = digitsValue number := by
      rcases hpiece with rfl | rfl | rfl <;> exact congrArg Term.count hterm
    rw [digitsValue_append] at hcount
    have := Nat.le_mul_of_pos_right (digitsValue number) (Nat.pow_pos (n := more.length) (show 0 < 10 by decide))
    omega

/-- A term that runs into the next goes astray. -/
theorem take_runs {first next : Token} {later : List Token} (hfirst : first.Sound) (hnext : next.Sound)
    (h : first.runsInto next = true) :
    ∃ taken rest, takeToken .invariant first.sign
        (first.body .invariant ++ rendered (next :: later) .invariant) = some (taken, rest) ∧
      Astray first (next :: later) taken rest := by
  obtain ⟨piece, sign, number, unit⟩ := first
  obtain ⟨nextPiece, nextSign, more, nextUnit⟩ := next
  rw [Token.runsInto, Bool.and_eq_true, decide_eq_true_eq] at h
  obtain ⟨hsign, hpieces⟩ := h
  dsimp only at hsign hpieces
  subst hsign
  rw [rendered_cons, signText, List.nil_append]
  rcases Bool.or_eq_true_iff.mp hpieces with hamount | hday
  · simp only [Bool.and_eq_true, Bool.or_eq_true, decide_eq_true_eq] at hamount
    obtain ⟨⟨rfl, hne⟩, hfirstPiece⟩ := hamount
    rw [amount_text]
    have hdigit := digitAt_number hnext.digits hne (letterByte nextUnit :: rendered later .invariant)
    rcases hfirstPiece with ((hpiece | hpiece) | hpiece) | ⟨hbare, hunit⟩
    · subst hpiece
      exact ⟨_, _, take_weekday sign (digitAt_number hfirst.digits
          (hfirst.numbered (by intro hnone; cases hnone) (by intro hnone; cases hnone)) _),
        astray_selected (.inl rfl) hfirst.digits hnext.digits hne⟩
    · subst hpiece
      exact ⟨_, _, take_week sign (digitAt_number hfirst.digits
          (hfirst.numbered (by intro hnone; cases hnone) (by intro hnone; cases hnone)) _),
        astray_selected (.inr (.inl rfl)) hfirst.digits hnext.digits hne⟩
    · subst hpiece
      exact ⟨_, _, take_dayOfMonth sign (digitAt_number hfirst.digits
          (hfirst.numbered (by intro hnone; cases hnone) (by intro hnone; cases hnone)) _),
        astray_selected (.inr (.inr rfl)) hfirst.digits hnext.digits hne⟩
    · simp only [Token.bare, Bool.and_eq_true, decide_eq_true_eq] at hbare
      obtain ⟨rfl, rfl⟩ := hbare
      rw [amount_text, List.nil_append]
      rcases hunit with rfl | rfl
      · exact ⟨_, _, take_dayOfMonth sign hdigit, .inl fun hterm => by cases congrArg Term.kind hterm⟩
      · exact ⟨_, _, take_week sign hdigit, .inl fun hterm => by cases congrArg Term.kind hterm⟩
  · simp only [Bool.and_eq_true, Token.bare, decide_eq_true_eq] at hday
    obtain ⟨⟨rfl, rfl, rfl⟩, rfl⟩ := hday
    have hdigit := digitAt_number hnext.digits (hnext.numbered (by intro hnone; cases hnone)
        (by intro hnone; cases hnone)) (rendered later .invariant)
    exact ⟨_, _, take_weekday sign hdigit, .inl fun hterm => by cases congrArg Term.kind hterm⟩

/-- A term is taken as it stands, and the next ones stand apart or not as they do alone; or it goes
astray, and they do not stand apart. -/
theorem take_cases {first : Token} {tail : List Token} (hfirst : first.Sound)
    (hsound : ∀ token ∈ tail, token.Sound) :
    ∃ taken rest, takeToken .invariant first.sign (first.body .invariant ++ rendered tail .invariant) =
        some (taken, rest) ∧
      ((rest = rendered tail .invariant ∧ taken.term = first.term ∧ (Apart (first :: tail) ↔ Apart tail)) ∨
        (Astray first tail taken rest ∧ ¬ Apart (first :: tail))) := by
  by_cases hfree : Free first tail
  · by_cases hweekday : first.bare = true → first.unit = .week →
        takeWeekday .invariant first.sign (87 :: rendered tail .invariant) = none
    · obtain ⟨taken, htake, hterm⟩ := take_free hfirst hsound hfree hweekday
      refine ⟨taken, _, htake, .inl ⟨rfl, hterm, ?_⟩⟩
      rw [apart_cons]
      exact and_iff_right hfree
    · simp only [not_forall] at hweekday
      obtain ⟨hbare, hunit, hsome⟩ := hweekday
      obtain ⟨piece, sign, number, unit⟩ := first
      simp only [Token.bare, Bool.and_eq_true, decide_eq_true_eq] at hbare
      obtain ⟨rfl, rfl⟩ := hbare
      dsimp only at hunit hsome
      subst hunit
      obtain ⟨⟨taken, rest⟩, hfound⟩ := Option.ne_none_iff_exists'.mp hsome
      refine ⟨taken, rest, ?_, .inr ⟨.inl ?_, ?_⟩⟩
      · rw [amount_text, List.nil_append, takeToken, show letterByte .week = 87 from rfl, hfound]
        rfl
      · rw [takeWeekday_cons] at hfound
        split at hfound
        · cases hfound
          intro hterm
          cases congrArg Term.kind hterm
        · cases hfound
      · intro hapart
        exact hsome (not_weekday_of_apart hsound hapart rfl)
  · obtain ⟨next, hnext, hruns⟩ : ∃ next, tail.head? = some next ∧ first.runsInto next = true := by
      simp only [Free, not_forall] at hfree
      obtain ⟨next, hnext, hruns⟩ := hfree
      exact ⟨next, hnext, Bool.not_eq_false _ ▸ hruns⟩
    obtain ⟨later, rfl⟩ := List.head?_eq_some_iff.mp hnext
    obtain ⟨taken, rest, htake, hastray⟩ := @take_runs _ _ later hfirst (hsound next List.mem_cons_self) hruns
    exact ⟨taken, rest, htake, .inr ⟨hastray, fun hapart => hfree (apart_cons.mp hapart).1⟩⟩

/-! ### What is read of a spelling -/

/-- A turn, or two with a sign, read the first term. -/
theorem tokensFrom_first {size turns : Nat} {first taken : Token} {tail read : List Token} {rest : Bytes}
    (hfirst : first.Sound)
    (htake : takeToken .invariant first.sign (first.body .invariant ++ rendered tail .invariant) = some (taken, rest))
    (hread : tokensFrom .invariant size turns none (rendered (first :: tail) .invariant) = .ok read) :
    ∃ fewer later, tokensFrom .invariant size fewer none rest = .ok later ∧ read = taken :: later := by
  obtain ⟨c, text, hhead, hsignOf, hspace⟩ := body_head hfirst (rendered tail .invariant)
  have hbody : ∀ {turns : Nat}, tokensFrom .invariant size turns first.sign (c :: text) = .ok read →
      ∃ fewer later, tokensFrom .invariant size fewer none rest = .ok later ∧ read = taken :: later := by
    intro turns hturn
    cases turns with
    | zero => cases hturn
    | succ turns =>
      rw [hhead] at htake
      rw [tokensFrom, hsignOf] at hturn
      dsimp only at hturn
      rw [hspace, if_neg Bool.false_ne_true, htake] at hturn
      obtain ⟨later, hlater, rfl⟩ := Fallible.of_map hturn
      exact ⟨turns, later, hlater, rfl⟩
  rw [rendered_cons, List.append_assoc, hhead] at hread
  cases hsign : first.sign with
  | none =>
    rw [hsign] at hread hbody
    exact hbody hread
  | some sign =>
    rw [hsign] at hread hbody
    cases turns with
    | zero => cases sign <;> cases hread
    | succ turns => cases sign <;> exact hbody hread

/-- The terms that are read of a spelling are those of the tokens that spell it where these stand
apart. -/
theorem reread_iff {size : Nat} (tokens : List Token) (hsound : ∀ token ∈ tokens, token.Sound) {turns : Nat}
    {read : List Token} (hread : tokensFrom .invariant size turns none (rendered tokens .invariant) = .ok read) :
    read.map Token.term = tokens.map Token.term ↔ Apart tokens := by
  induction tokens generalizing turns read with
  | nil =>
    have hnil : read = [] := by
      cases turns <;> cases hread <;> rfl
    rw [hnil]
    exact iff_of_true rfl List.isChain_nil
  | cons first tail ih =>
    obtain ⟨hfirst, htail⟩ := List.forall_mem_cons.mp hsound
    obtain ⟨taken, rest, htake, hcases⟩ := take_cases hfirst htail
    obtain ⟨fewer, later, hlater, rfl⟩ := tokensFrom_first hfirst htake hread
    rw [List.map_cons, List.map_cons, List.cons.injEq]
    rcases hcases with ⟨rfl, hterm, hapart⟩ | ⟨hastray, hnot⟩
    · rw [hapart, ← ih htail hlater]
      exact and_iff_right hterm
    · refine iff_of_false ?_ hnot
      intro hboth
      obtain ⟨hterm, hterms⟩ := hboth
      rcases hastray with hne | ⟨next, others, unit, text, rfl, hkind, hcount, rfl⟩
      · exact hne hterm
      · -- the next term was left without its number
        cases later with
        | nil => cases hterms
        | cons found later =>
          rw [List.map_cons, List.map_cons, List.cons.injEq] at hterms
          cases fewer with
          | zero => cases hlater
          | succ fewer =>
            have hsignOf : signOf (letterByte unit) = none := by cases unit <;> rfl
            have hspace : isSpace (letterByte unit) = false := by cases unit <;> rfl
            rw [tokensFrom, hsignOf] at hlater
            dsimp only at hlater
            rw [hspace, if_neg Bool.false_ne_true] at hlater
            split at hlater
            · next htaken =>
              obtain ⟨_, -, heq⟩ := Fallible.of_map hlater
              cases heq
              have hone := take_letter none unit text htaken (by rw [hterms.1, hkind])
              rw [hterms.1, hcount] at hone
              cases hone
            · cases hlater

/-! ### A formula that was entered, read again from its column and from its spelling in angle brackets. -/

namespace DateFormula

/-- The invariant text, as a program writes a formula. -/
def bracketed (formula : DateFormula) : Bytes := Ch.less :: (formula.text ++ [Ch.greater])

/-- What is read again has the formula's terms. -/
structure Means (language : Int32) (formula : DateFormula) : Prop where
  stored : ∃ again, fromText language formula.toStorageText = .ok again ∧ again.terms = formula.terms
  written : ∃ again, fromText language formula.bracketed = .ok again ∧ again.terms = formula.terms

/-- No letter of a spelling is a packed one. -/
theorem isPacked_invariant {tokens : List Token} (h : ∀ token ∈ tokens, token.Sound) :
    isPacked (rendered tokens .invariant) = false := by
  have happend : ∀ a b : Bytes, isPacked (a ++ b) = (isPacked a || isPacked b) := fun _ _ => List.any_append
  induction tokens with
  | nil => rfl
  | cons token rest ih =>
    obtain ⟨htoken, hrest⟩ := List.forall_mem_cons.mp h
    have hnumber : isPacked token.number = false := by
      rw [isPacked, List.any_eq_false]
      intro c hc
      exact forall_digit (p := fun c => ¬ (1 ≤ c && c ≤ 7) = true) (by decide +kernel) (htoken.digits c hc)
    have hletter : ∀ unit, isPacked (Letters.invariant.letter unit) = false := by
      intro unit
      cases unit <;> rfl
    have hsign : ∀ sign, isPacked (signText sign) = false := by
      intro sign
      rcases sign with _ | _ | _ <;> rfl
    have hbody : isPacked (token.body .invariant) = false := by
      unfold Token.body
      split
      · rw [happend, hletter]
        rfl
      · rw [happend, hnumber]
        rfl
      · rw [happend, hnumber]
        rfl
      · rw [happend, hnumber]
        rfl
      · rw [happend, hnumber, hletter]
        rfl
    rw [rendered_cons, happend, happend, hsign, hbody, ih hrest]
    rfl

theorem reading_bracketed (language : Int32) (formula : DateFormula) :
    reading language formula.bracketed = (formula.text, .invariant) := by
  obtain ⟨tokens, hsound, htext, -⟩ := formula.made
  have hlast : formula.bracketed.getLast? = some Ch.greater := by
    rw [bracketed, ← List.cons_append]
    exact List.getLast?_concat
  have hpacked : isPacked formula.text = false := by
    rw [htext]
    exact isPacked_invariant hsound
  have hinner : formula.bracketed.tail.dropLast = formula.text := by
    rw [bracketed, List.tail_cons, List.dropLast_concat]
  have hhead : formula.bracketed.head? = some Ch.less := rfl
  rw [reading]
  simp [hhead, hlast, hinner, hpacked]

/-- What is read of the column and of the brackets is what is read of the spelling. -/
theorem means_iff_terms (language : Int32) (formula : DateFormula) {again : List Token}
    (h : tokens formula.text .invariant = .ok again) :
    formula.Means language ↔ again.map Token.term = formula.terms := by
  have hsound := tokens_sound h
  have hbracketed : fromText language formula.bracketed = .ok (ofTokens again hsound) := by
    have hreading : tokens (reading language formula.bracketed).1 (reading language formula.bracketed).2 =
        .ok again := by rw [reading_bracketed, h]
    exact fromText_of_tokens hreading
  have hstored : fromText language formula.toStorageText = .ok (ofTokens again hsound) := by
    have htext : rendered again .invariant = formula.text := by
      obtain ⟨read, hread, htext⟩ := tokens_spelling formula.spelling
      rw [h] at hread
      cases hread
      exact htext
    rw [toStorageText, h]
    dsimp only
    have hreading : tokens (reading language (rendered again .packed)).1
        (reading language (rendered again .packed)).2 = .ok again := by
      by_cases hnil : again = []
      · subst hnil
        rfl
      · rw [reading_packed language hsound hnil, htext, h]
    exact fromText_of_tokens hreading
  constructor
  · intro hmeans
    obtain ⟨found, hfound, hterms⟩ := hmeans.written
    rw [hbracketed] at hfound
    cases hfound
    exact hterms
  · intro hterms
    exact ⟨⟨_, hstored, hterms⟩, _, hbracketed, hterms⟩

end DateFormula

open DateFormula

/-- **When a formula means what was entered.** A text that is read as a formula, in whatever language, is
read again as the same terms exactly where the terms of the text stand apart. -/
theorem entered_means (entered language : Int32) (text : Bytes) {formula : DateFormula}
    (h : fromText entered text = .ok formula) :
    formula.Means language ↔
      ∃ read, tokens (reading entered text).1 (reading entered text).2 = .ok read ∧ Apart read := by
  cases hread : tokens (reading entered text).1 (reading entered text).2 with
  | error refusal =>
    exfalso
    unfold fromText at h
    split at h
    · cases h
    · next hok =>
      rw [hread] at hok
      cases hok
  | ok read =>
    have hsound := tokens_sound hread
    rw [fromText_of_tokens hread] at h
    cases h
    obtain ⟨again, hagain, -⟩ := tokens_spelling (ofTokens read hsound).spelling
    rw [means_iff_terms language _ hagain, show (ofTokens read hsound).terms = read.map Token.term from rfl]
    have hiff := reread_iff read hsound hagain
    constructor
    · intro hterms
      exact ⟨read, rfl, hiff.mp hterms⟩
    · intro hapart
      obtain ⟨found, hfound, hapart⟩ := hapart
      cases hfound
      exact hiff.mpr hapart

/-- `CM + 10D`. -/
theorem entered_means_month :
    ∃ formula, fromText 1033 (ascii "CM + 10D") = .ok formula ∧ formula.Means 1031 := by
  have h := @fromText_of_tokens 1033 (ascii "CM + 10D")
    [⟨.period, none, [], .month⟩, ⟨.amount, some .plus, ascii "10", .day⟩] (by decide +kernel)
  refine ⟨_, h, (entered_means 1033 1031 _ h).mpr
    ⟨[⟨.period, none, [], .month⟩, ⟨.amount, some .plus, ascii "10", .day⟩], ?_, ?_⟩⟩
  · decide +kernel
  · decide

/-- A day, and two weeks: read again they are the second of the month, and a week. -/
theorem entered_changes :
    ¬ ∀ (entered language : Int32) (text : Bytes) (formula : DateFormula),
      fromText entered text = .ok formula → formula.Means language := by
  intro hall
  have h := @fromText_of_tokens 1033 (ascii "D 2W")
    [⟨.amount, none, [], .day⟩, ⟨.amount, none, ascii "2", .week⟩] (by decide +kernel)
  have hterms := (@means_iff_terms 1033 _ [⟨.dayOfMonth, none, ascii "2", .day⟩, ⟨.amount, none, [], .week⟩]
    (by decide +kernel)).mp (hall 1033 1033 _ _ h)
  exact absurd hterms (by decide +kernel)

end Agiru.Storage
