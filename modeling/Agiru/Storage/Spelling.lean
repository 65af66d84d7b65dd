import Agiru.Storage.Formula

/-! A formula's spelling, read again: tokens that spell it. -/
namespace Agiru.Storage
open Bytes

variable {text : Bytes} {token : Token}
variable {c : UInt8}

/-- The letter of a unit. -/
def letterByte : DateUnit → UInt8
  | .day => 68
  | .week => 87
  | .month => 77
  | .quarter => 81
  | .year => 89

/-- The unit of a letter of either case. -/
def unitOf (c : UInt8) : Option DateUnit := units.find? fun unit => folded false c = letterByte unit

@[simp] theorem unitOf_letterByte (unit : DateUnit) : unitOf (letterByte unit) = some unit := by
  cases unit <;> decide

theorem forall_digit {p : UInt8 → Prop} (h : ∀ n < 10, p (UInt8.ofNat (48 + n))) (hc : isDigit c = true) : p c := by
  have hlt := isDigit_value hc
  simp only [isDigit, Bool.and_eq_true, decide_eq_true_eq, UInt8.le_iff_toNat_le] at hc
  have h48 : (48 : UInt8).toNat = 48 := rfl
  have heq : c = UInt8.ofNat (48 + (c.toNat - 48)) := by
    rw [show 48 + (c.toNat - 48) = c.toNat by omega]
    exact (UInt8.ofNat_toNat).symm
  rw [heq]
  exact h _ hlt

theorem unitOf_digit (hc : isDigit c = true) : unitOf c = none :=
  forall_digit (p := fun c => unitOf c = none) (by decide) hc

theorem folded_digit (hc : isDigit c = true) : folded false c ≠ 87 ∧ folded false c ≠ 67 ∧ folded false c ≠ 68 :=
  forall_digit (p := fun c => folded false c ≠ 87 ∧ folded false c ≠ 67 ∧ folded false c ≠ 68) (by decide) hc

theorem letter_invariant (unit : DateUnit) : Letters.invariant.letter unit = [letterByte unit] := by
  cases unit <;> rfl

/-! ### What each turn takes -/

theorem tokenAt_singleton (c b : UInt8) (text : Bytes) :
    tokenAt (c :: text) [b] = decide (folded false c = b) := by
  simp [tokenAt, spells]

theorem unitAtEither_cons (c : UInt8) (text : Bytes) :
    unitAtEither (c :: text) .invariant = (unitOf c).map fun unit => (unit, 1) := by
  have hin : unitAtIn (c :: text) .invariant = (unitOf c).map fun unit => (unit, 1) := by
    simp only [unitAtIn, letter_invariant, tokenAt_singleton, decide_eq_true_eq, List.length_singleton, unitOf]
    generalize units = all
    induction all with
    | nil => rfl
    | cons unit rest ih =>
      by_cases hunit : folded false c = letterByte unit
      · simp [hunit]
      · simp [hunit, ih]
  rw [unitAtEither, hin]
  cases unitOf c <;> rfl

theorem takeWeekday_cons (sign : Option Sign) (c : UInt8) (text : Bytes) :
    takeWeekday .invariant sign (c :: text) =
      if folded false c = 87 ∧ text.head?.any (fun d => folded false d = 68) ∧ digitAt text.tail then
        some (selected .weekday sign text.tail) else none := by
  have hword : Letters.invariant.weekday = [87, 68] := rfl
  have htoken : tokenAt (c :: text) [87, 68] =
      (decide (folded false c = 87) && text.head?.any fun d => folded (c = 0xC3) d = 68) := by
    cases text <;> simp [tokenAt, spells]
  unfold takeWeekday prefixLength
  rw [hword, htoken]
  by_cases hc : folded false c = 87
  · have hlead : c ≠ 0xC3 := by
      rintro rfl
      exact absurd hc (by decide)
    cases text with
    | nil => simp [hc]
    | cons d text =>
      by_cases hd : folded false d = 68
      · simp [hc, hd, hlead]
      · simp [hc, hd, hlead]
  · simp [hc]

theorem takePeriod_cons (sign : Option Sign) (c : UInt8) (text : Bytes) :
    takePeriod .invariant sign (c :: text) =
      if folded false c = 67 then
        (unitAtEither text .invariant).map fun (unit, n) => (⟨.period, sign, [], unit⟩, text.drop n)
      else none := by
  have hword : Letters.invariant.current = [67] := rfl
  unfold takePeriod prefixLength
  rw [hword, tokenAt_singleton]
  by_cases hc : folded false c = 67
  · simp [hc, Nat.add_comm 1]
  · simp [hc]

theorem takeSelector_cons (sign : Option Sign) (c : UInt8) (text : Bytes) :
    takeSelector .invariant sign (c :: text) =
      if digitAt text then
        match unitOf c with
        | some .week => some (selected .week sign text)
        | some .day => some (selected .dayOfMonth sign text)
        | _ => none
      else none := by
  rw [takeSelector, unitAtEither_cons]
  cases hunit : unitOf c with
  | none => simp
  | some unit => cases unit <;> simp

theorem take_weekday (sign : Option Sign) (h : digitAt text = true) :
    takeToken .invariant sign (87 :: 68 :: text) = some (selected .weekday sign text) := by
  rw [takeToken, takeWeekday_cons, if_pos ⟨by decide, by simp [show folded false 68 = 68 by decide], h⟩]
  rfl

theorem take_period (sign : Option Sign) (unit : DateUnit) (text : Bytes) :
    takeToken .invariant sign (67 :: letterByte unit :: text) = some (⟨.period, sign, [], unit⟩, text) := by
  rw [takeToken, takeWeekday_cons, if_neg (by simp [show folded false 67 = 67 by decide]), takePeriod_cons,
    if_pos (by decide), unitAtEither_cons, unitOf_letterByte]
  rfl

/-- A week's number follows its letter. -/
theorem take_week (sign : Option Sign) (h : digitAt text = true) :
    takeToken .invariant sign (87 :: text) = some (selected .week sign text) := by
  have hhead : ¬ (folded false 87 = 87 ∧ text.head?.any (fun d => folded false d = 68) ∧ digitAt text.tail) := by
    cases text with
    | nil => simp
    | cons d text => simp [(folded_digit (c := d) h).2.2]
  rw [takeToken, takeWeekday_cons, if_neg hhead, takePeriod_cons, if_neg (by decide), takeSelector_cons, if_pos h]
  rfl

theorem take_dayOfMonth (sign : Option Sign) (h : digitAt text = true) :
    takeToken .invariant sign (68 :: text) = some (selected .dayOfMonth sign text) := by
  rw [takeToken, takeWeekday_cons, if_neg (by simp [show folded false 68 = 68 by decide]), takePeriod_cons,
    if_neg (by decide), takeSelector_cons, if_pos h]
  rfl

theorem take_amount (sign : Option Sign) {number : Bytes} (hdigits : Digits number) (hne : number ≠ [])
    (unit : DateUnit) (text : Bytes) :
    takeToken .invariant sign (number ++ letterByte unit :: text) =
        some (⟨.amount, sign, number, unit⟩, text) := by
  have hletter : isDigit (letterByte unit) = false := by cases unit <;> rfl
  have htake : takeDigits (number ++ letterByte unit :: text) = (number, letterByte unit :: text) := by
    rw [takeDigits, List.takeWhile_append_of_pos hdigits, List.dropWhile_append_of_pos hdigits,
      List.takeWhile_cons_of_neg (by simp [hletter]), List.dropWhile_cons_of_neg (by simp [hletter]), List.append_nil]
  obtain ⟨c, number, rfl⟩ := List.exists_cons_of_ne_nil hne
  have hc := hdigits c List.mem_cons_self
  obtain ⟨hweek, hcurrent, -⟩ := folded_digit hc
  rw [takeToken, takeAmount, htake, List.cons_append, takeWeekday_cons, if_neg (fun h => hweek h.1), takePeriod_cons,
    if_neg hcurrent, takeSelector_cons, unitOf_digit hc]
  dsimp only
  rw [unitAtEither_cons, unitOf_letterByte]
  simp

/-- A letter alone, where no weekday stands and no selector's number follows. -/
theorem take_unit (sign : Option Sign) (unit : DateUnit)
    (hweekday : takeWeekday .invariant sign (letterByte unit :: text) = none)
    (hselector : unit = .week ∨ unit = .day → digitAt text = false) :
    takeToken .invariant sign (letterByte unit :: text) = some (⟨.amount, sign, [], unit⟩, text) := by
  have hperiod : takePeriod .invariant sign (letterByte unit :: text) = none := by
    rw [takePeriod_cons]
    cases unit <;> rfl
  have hnot : takeSelector .invariant sign (letterByte unit :: text) = none := by
    rw [takeSelector_cons, unitOf_letterByte]
    cases unit <;> simp_all
  have hletter : isDigit (letterByte unit) = false := by cases unit <;> rfl
  have htake : takeDigits (letterByte unit :: text) = ([], letterByte unit :: text) := by
    rw [takeDigits, List.takeWhile_cons_of_neg (by simp [hletter]), List.dropWhile_cons_of_neg (by simp [hletter])]
  rw [takeToken, hweekday, hperiod, hnot, takeAmount, htake]
  dsimp only
  rw [unitAtEither_cons, unitOf_letterByte]
  rfl

/-! ### Spellings -/

/-- A text that tokens spell. -/
def Spelling (text : Bytes) : Prop :=
  ∃ tokens : List Token, (∀ token ∈ tokens, token.Sound) ∧ text = rendered tokens .invariant

theorem Spelling.nil : Spelling [] := ⟨[], fun _ h => absurd h List.not_mem_nil, rfl⟩

theorem Spelling.cons (htoken : token.Sound) (h : Spelling text) :
    Spelling (signText token.sign ++ token.body .invariant ++ text) := by
  obtain ⟨rest, hrest, rfl⟩ := h
  exact ⟨token :: rest, List.forall_mem_cons.mpr ⟨htoken, hrest⟩, rfl⟩

/-- Without a sign, a token begins with a digit only where it is an amount with a number, and with
`D` only where it is a day of the month or a bare amount of days. -/
theorem body_cases (h : token.Sound) (text : Bytes) :
    (∃ unit, token.body .invariant ++ text = 67 :: letterByte unit :: text) ∨
    (∃ number, Digits number ∧ number ≠ [] ∧
      (token.body .invariant ++ text = 87 :: 68 :: (number ++ text) ∨
        token.body .invariant ++ text = 87 :: (number ++ text) ∨
        token.body .invariant ++ text = 68 :: (number ++ text))) ∨
    (∃ number unit, Digits number ∧ token.body .invariant ++ text = number ++ letterByte unit :: text) := by
  obtain ⟨piece, sign, number, unit⟩ := token
  cases piece with
  | period =>
    refine .inl ⟨unit, ?_⟩
    simp only [Token.body, letter_invariant]
    rfl
  | weekday => exact .inr (.inl ⟨number, h.digits, h.numbered nofun nofun, .inl rfl⟩)
  | week => exact .inr (.inl ⟨number, h.digits, h.numbered nofun nofun, .inr (.inl rfl)⟩)
  | dayOfMonth => exact .inr (.inl ⟨number, h.digits, h.numbered nofun nofun, .inr (.inr rfl)⟩)
  | amount =>
    refine .inr (.inr ⟨number, unit, h.digits, ?_⟩)
    simp [Token.body, letter_invariant]

theorem body_ne_nil (h : token.Sound) : token.body .invariant ≠ [] := by
  intro hnil
  rcases body_cases h [] with ⟨unit, heq⟩ | ⟨number, -, -, heq⟩ | ⟨number, unit, -, heq⟩
  · simp [hnil] at heq
  · simp [hnil] at heq
  · simp [hnil] at heq

theorem Spelling.unit (h : Spelling text) (unit : DateUnit) : Spelling (letterByte unit :: text) := by
  have hbare : Token.Sound ⟨.amount, none, [], unit⟩ :=
    ⟨fun _ hc => absurd hc List.not_mem_nil, fun _ hne => absurd rfl hne⟩
  simpa [signText, Token.body, letter_invariant] using Spelling.cons hbare h

theorem dropWhile_of_head (h : isDigit c = false) : (c :: text).dropWhile isDigit = c :: text := List.dropWhile_cons_of_neg (by simp [h])

theorem dropWhile_number {number : Bytes} (h : Digits number) (text : Bytes) :
    (number ++ text).dropWhile isDigit = text.dropWhile isDigit := List.dropWhile_append_of_pos h

/-- A spelling without the digits it begins with. -/
theorem Spelling.dropDigits (h : Spelling text) : Spelling (text.dropWhile isDigit) := by
  obtain ⟨tokens, hsound, rfl⟩ := id h
  cases tokens with
  | nil => exact Spelling.nil
  | cons token rest =>
    obtain ⟨htoken, hrest⟩ := List.forall_mem_cons.mp hsound
    have hspelled : Spelling (rendered rest .invariant) := ⟨rest, hrest, rfl⟩
    rw [rendered_cons] at h ⊢
    cases hsign : token.sign with
    | some sign =>
      rw [hsign] at h
      cases sign <;> exact h
    | none =>
      rw [hsign] at h
      rw [signText, List.nil_append] at h ⊢
      rcases body_cases htoken (rendered rest .invariant) with
        ⟨unit, heq⟩ | ⟨number, hdigits, hne, heq⟩ | ⟨number, unit, hdigits, heq⟩
      · rw [heq] at h ⊢
        exact h
      · rcases heq with heq | heq | heq <;> rw [heq] at h ⊢ <;> exact h
      · have hletter : isDigit (letterByte unit) = false := by cases unit <;> rfl
        rw [heq, dropWhile_number hdigits, dropWhile_of_head hletter]
        exact hspelled.unit unit

/-- A spelling without the `D` it begins with, and the digits that follow. -/
theorem Spelling.dropDay (h : Spelling (c :: text)) (hc : folded false c = 68) :
    c = 68 ∧ Spelling (text.dropWhile isDigit) := by
  obtain ⟨tokens, hsound, htext⟩ := h
  cases tokens with
  | nil => cases htext
  | cons token rest =>
    obtain ⟨htoken, hrest⟩ := List.forall_mem_cons.mp hsound
    have hspelled : Spelling (rendered rest .invariant) := ⟨rest, hrest, rfl⟩
    rw [rendered_cons] at htext
    cases hsign : token.sign with
    | some sign =>
      rw [hsign] at htext
      cases sign <;> cases htext <;> cases hc
    | none =>
      rw [hsign, signText, List.nil_append] at htext
      rcases body_cases htoken (rendered rest .invariant) with
        ⟨unit, heq⟩ | ⟨number, hdigits, hne, heq⟩ | ⟨number, unit, hdigits, heq⟩
      · rw [heq] at htext
        cases htext
        cases hc
      · rcases heq with heq | heq | heq <;> rw [heq] at htext <;> cases htext
        · cases hc
        · cases hc
        · exact ⟨rfl, by rw [dropWhile_number hdigits]; exact hspelled.dropDigits⟩
      · rw [heq] at htext
        cases number with
        | nil =>
          cases htext
          obtain rfl : unit = .day := by cases unit <;> first | rfl | cases hc
          exact ⟨rfl, hspelled.dropDigits⟩
        | cons d number =>
          cases htext
          exact absurd hc (folded_digit (hdigits c List.mem_cons_self)).2.2

/-! ### Reading a spelling -/

/-- What is selected spells the text behind the selector's letters. -/
theorem selected_text (piece : Piece) (sign : Option Sign) (text : Bytes) :
    (selected piece sign text).1.number ++ (selected piece sign text).2 = text := List.takeWhile_append_dropWhile

/-- A token that was read of a spelling spells what was read, and the rest is a spelling. -/
structure Reads (sign : Option Sign) (text : Bytes) (read : Token) (rest : Bytes) : Prop where
  taken : takeToken .invariant sign text = some (read, rest)
  signed : read.sign = sign
  left : Spelling rest
  spelled : read.body .invariant ++ rest = text

theorem reads_spelling (sign : Option Sign) (htoken : token.Sound) (h : Spelling text) :
    ∃ read rest, Reads sign (token.body .invariant ++ text) read rest := by
  rcases body_cases htoken text with ⟨unit, heq⟩ | ⟨number, hdigits, hne, heq⟩ | ⟨number, unit, hdigits, heq⟩
  · rw [heq]
    exact ⟨_, _, take_period sign unit text, rfl, h, by simp [Token.body, letter_invariant]; rfl⟩
  · have hdigit : digitAt (number ++ text) = true := by
      obtain ⟨c, number, rfl⟩ := List.exists_cons_of_ne_nil hne
      exact hdigits c List.mem_cons_self
    have hrest : Spelling ((number ++ text).dropWhile isDigit) := by
      rw [dropWhile_number hdigits]
      exact h.dropDigits
    rcases heq with heq | heq | heq <;> rw [heq]
    · exact ⟨_, _, take_weekday sign hdigit, rfl, hrest, congrArg (87 :: 68 :: ·) (selected_text .weekday sign _)⟩
    · exact ⟨_, _, take_week sign hdigit, rfl, hrest, congrArg (87 :: ·) (selected_text .week sign _)⟩
    · exact ⟨_, _, take_dayOfMonth sign hdigit, rfl, hrest, congrArg (68 :: ·) (selected_text .dayOfMonth sign _)⟩
  · rw [heq]
    by_cases hne : number = []
    · subst hne
      rw [List.nil_append]
      by_cases hweekday : folded false (letterByte unit) = 87 ∧ text.head?.any (fun d => folded false d = 68) ∧
          digitAt text.tail
      · obtain ⟨hunit, hday, hdigit⟩ := hweekday
        obtain rfl : unit = .week := by cases unit <;> first | rfl | cases hunit
        cases text with
        | nil => cases hdigit
        | cons d text =>
          obtain ⟨rfl, hrest⟩ := h.dropDay (by simpa using hday)
          exact ⟨_, _, take_weekday sign hdigit, rfl, hrest,
              congrArg (87 :: 68 :: ·) (selected_text .weekday sign _)⟩
      · have hnone : takeWeekday .invariant sign (letterByte unit :: text) = none := by
          rw [takeWeekday_cons, if_neg hweekday]
        by_cases hdigit : digitAt text = true
        · cases unit with
          | week => exact ⟨_, _, take_week sign hdigit, rfl, h.dropDigits,
              congrArg (87 :: ·) (selected_text .week sign _)⟩
          | day =>
            exact ⟨_, _, take_dayOfMonth sign hdigit, rfl, h.dropDigits,
                congrArg (68 :: ·) (selected_text .dayOfMonth sign _)⟩
          | month => exact ⟨_, _, take_unit sign .month hnone (by simp), rfl, h, rfl⟩
          | quarter => exact ⟨_, _, take_unit sign .quarter hnone (by simp), rfl, h, rfl⟩
          | year => exact ⟨_, _, take_unit sign .year hnone (by simp), rfl, h, rfl⟩
        · exact ⟨_, _, take_unit sign unit hnone fun _ => by simpa using hdigit, rfl, h,
            by simp [Token.body, letter_invariant]⟩
    · exact ⟨_, _, take_amount sign hdigits hne unit text, rfl, h, by simp [Token.body, letter_invariant]⟩

/-- Neither a sign nor white space begins a token. -/
theorem body_head (h : token.Sound) (text : Bytes) :
    ∃ c rest, token.body .invariant ++ text = c :: rest ∧ signOf c = none ∧ isSpace c = false := by
  rcases body_cases h text with ⟨unit, heq⟩ | ⟨number, -, -, heq⟩ | ⟨number, unit, hdigits, heq⟩
  · exact ⟨_, _, heq, rfl, rfl⟩
  · rcases heq with heq | heq | heq <;> exact ⟨_, _, heq, rfl, rfl⟩
  · cases number with
    | nil => exact ⟨_, _, heq, by cases unit <;> rfl, by cases unit <;> rfl⟩
    | cons c number =>
      have hc := hdigits c List.mem_cons_self
      exact ⟨_, _, heq, forall_digit (p := fun c => signOf c = none) (by decide) hc, isSpace_digit hc⟩

/-- So many turns read a token's letters behind its sign, and what follows, to tokens that spell
both. -/
def ReadsBody (size turns : Nat) : Prop :=
  ∀ (sign : Option Sign) (token : Token), token.Sound → ∀ text, Spelling text →
    (token.body .invariant ++ text).length ≤ turns →
      ∃ read, tokensFrom .invariant size turns sign (token.body .invariant ++ text) = .ok read ∧
        rendered read .invariant = signText sign ++ token.body .invariant ++ text

/-- A spelling is a token behind its sign, or nothing. -/
theorem tokensFrom_spelling {size turns : Nat} (hbody : ∀ fewer ≤ turns, ReadsBody size fewer)
    (h : Spelling text) (hturns : text.length ≤ turns) :
    ∃ read, tokensFrom .invariant size turns none text = .ok read ∧ rendered read .invariant = text := by
  obtain ⟨tokens, hsound, rfl⟩ := h
  cases tokens with
  | nil => exact ⟨[], by rw [rendered_nil]; unfold tokensFrom; rfl, rfl⟩
  | cons next rest =>
    obtain ⟨hnext, hrest⟩ := List.forall_mem_cons.mp hsound
    have hspelled : Spelling (rendered rest .invariant) := ⟨rest, hrest, rfl⟩
    rw [rendered_cons] at hturns ⊢
    cases hsign : next.sign with
    | none =>
      rw [hsign] at hturns
      exact hbody turns (Nat.le_refl _) none next hnext _ hspelled hturns
    | some sign =>
      rw [hsign] at hturns
      obtain ⟨c, hc, hsignOf⟩ : ∃ c, signText (some sign) = [c] ∧ signOf c = some sign := by
        cases sign
        · exact ⟨Ch.plus, rfl, rfl⟩
        · exact ⟨Ch.minus, rfl, rfl⟩
      rw [hc, List.append_assoc, List.singleton_append] at hturns ⊢
      cases turns with
      | zero => exact absurd hturns (by simp)
      | succ turns =>
        obtain ⟨read, hread, htext⟩ :=
          hbody turns (Nat.le_succ _) (some sign) next hnext _ hspelled (Nat.le_of_succ_le_succ hturns)
        refine ⟨read, ?_, by rw [htext, hc]; rfl⟩
        rw [tokensFrom, hsignOf]
        exact hread

theorem readsBody (size turns : Nat) : ReadsBody size turns := by
  induction turns using Nat.strong_induction_on with
  | _ turns ih =>
    intro sign token htoken text h hturns
    obtain ⟨read, left, hreads⟩ := reads_spelling sign htoken h
    obtain ⟨c, rest, hhead, hsignOf, hspace⟩ := body_head htoken text
    have hless : left.length < (token.body .invariant ++ text).length := by
      rw [← hreads.spelled, List.length_append]
      have := List.length_pos_of_ne_nil (body_ne_nil (takeToken_sound hreads.taken))
      omega
    cases turns with
    | zero => omega
    | succ turns =>
      have hfewer : ∀ fewer ≤ turns, ReadsBody size fewer := fun fewer hle => ih fewer (Nat.lt_succ_of_le hle)
      obtain ⟨tail, htail, htext⟩ := tokensFrom_spelling hfewer hreads.left (by omega)
      refine ⟨read :: tail, ?_, ?_⟩
      · have htaken := hreads.taken
        rw [hhead] at htaken ⊢
        rw [tokensFrom, hsignOf]
        dsimp only
        rw [hspace, if_neg Bool.false_ne_true, htaken]
        dsimp only
        rw [htail]
        rfl
      · rw [rendered_cons, htext, hreads.signed, List.append_assoc, hreads.spelled, List.append_assoc]

/-- Tokens are read of a spelling, and they spell it. -/
theorem tokens_spelling (h : Spelling text) :
    ∃ read, tokens text .invariant = .ok read ∧ rendered read .invariant = text :=
  tokensFrom_spelling (fun fewer _ => readsBody _ fewer) h (Nat.le_refl _)

end Agiru.Storage
