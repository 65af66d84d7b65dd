import Agiru.Storage.Spelling

/-! Date formulas, as columns hold them.

A column's text is the formula's spelling in packed letters. What is read of it has the formula's
spelling, and its terms where the spelling names them (`DateFormula.ofColumn_storage`). -/
namespace Agiru.Storage
open Bytes

/-! ### Packed letters -/

/-- `IsPacked`. -/
def isPacked (text : Bytes) : Bool := text.any fun c => 1 ≤ c && c ≤ 7

def unpackedLetter (c : UInt8) : Bytes :=
  match c.toNat with
  | 1 => ascii "C"
  | 2 => ascii "D"
  | 3 => ascii "WD"
  | 4 => ascii "W"
  | 5 => ascii "M"
  | 6 => ascii "Q"
  | 7 => ascii "Y"
  | _ => [c]

/-- `Unpacked`. -/
def unpacked (text : Bytes) : Bytes := text.flatMap unpackedLetter

theorem unpacked_digits {number : Bytes} (h : Digits number) : unpacked number = number := by
  unfold unpacked
  rw [List.flatMap_congr (g := fun c => [c]) fun c hc =>
    forall_digit (p := fun c => unpackedLetter c = [c]) (by decide) (h c hc)]
  simp

/-- A packed spelling, in letters again. -/
theorem unpacked_rendered {tokens : List Token} (h : ∀ token ∈ tokens, token.Sound) :
    unpacked (rendered tokens .packed) = rendered tokens .invariant := by
  induction tokens with
  | nil => rfl
  | cons token rest ih =>
    obtain ⟨htoken, hrest⟩ := List.forall_mem_cons.mp h
    have hsign : unpacked (signText token.sign) = signText token.sign := by
      rcases token.sign with _ | _ | _ <;> rfl
    have hbody : unpacked (token.body .packed) = token.body .invariant := by
      obtain ⟨piece, sign, number, unit⟩ := token
      have hnumber := unpacked_digits htoken.digits
      have hletter : unpacked (Letters.packed.letter unit) = Letters.invariant.letter unit := by cases unit <;> rfl
      unfold unpacked at hnumber hletter
      cases piece <;> simp only [Token.body, unpacked, List.flatMap_append, hnumber, hletter] <;> rfl
    have happend : ∀ a b : Bytes, unpacked (a ++ b) = unpacked a ++ unpacked b := fun _ _ => List.flatMap_append
    rw [rendered_cons, rendered_cons, happend, happend, hsign, hbody, ih hrest]

/-- A token's letter is packed. -/
theorem isPacked_rendered {tokens : List Token} (h : tokens ≠ []) : isPacked (rendered tokens .packed) = true := by
  obtain ⟨token, rest, rfl⟩ := List.exists_cons_of_ne_nil h
  have hbody : isPacked (token.body .packed) = true := by
    obtain ⟨piece, sign, number, unit⟩ := token
    cases piece <;> cases unit <;> simp [isPacked, Token.body, Letters.packed, Letters.letter]
  simp only [isPacked, rendered_cons, List.any_append] at hbody ⊢
  simp [hbody]

theorem less_not_mem_packed {tokens : List Token} (h : ∀ token ∈ tokens, token.Sound) :
    Ch.less ∉ rendered tokens .packed := by
  induction tokens with
  | nil => exact List.not_mem_nil
  | cons token rest ih =>
    obtain ⟨htoken, hrest⟩ := List.forall_mem_cons.mp h
    have hsign : Ch.less ∉ signText token.sign := by rcases token.sign with _ | _ | _ <;> decide
    have hbody : Ch.less ∉ token.body .packed := by
      obtain ⟨piece, sign, number, unit⟩ := token
      have hnumber : Ch.less ∉ number := fun hmem => absurd (htoken.digits _ hmem) (by decide)
      cases piece <;> cases unit <;> simp [Token.body, Letters.packed, Letters.letter, hnumber] <;> decide
    rw [rendered_cons, List.mem_append, List.mem_append]
    rintro ((hmem | hmem) | hmem)
    · exact hsign hmem
    · exact hbody hmem
    · exact ih hrest hmem

/-! ### Formulas -/

/-- What a term adds to a date; its number is the digits' value. -/
structure Term where
  kind : Piece
  unit : DateUnit
  count : Nat
  negative : Bool
  deriving Repr, DecidableEq

def Token.term (token : Token) : Term :=
  let negative := token.sign = some .minus
  match token.piece with
  | .period => ⟨.period, token.unit, 0, negative⟩
  | .weekday => ⟨.weekday, .day, digitsValue token.number, negative⟩
  | .week => ⟨.week, .week, digitsValue token.number, negative⟩
  | .dayOfMonth => ⟨.dayOfMonth, .day, digitsValue token.number, negative⟩
  | .amount => ⟨.amount, token.unit, if token.number = [] then 1 else digitsValue token.number, negative⟩

/-- A formula is made of tokens: their spelling in the invariant letters, and their terms. -/
structure DateFormula where
  terms : List Term
  text : Bytes
  made : ∃ tokens : List Token, (∀ token ∈ tokens, token.Sound) ∧
    text = rendered tokens .invariant ∧ terms = tokens.map Token.term

namespace DateFormula

def ofTokens (tokens : List Token) (h : ∀ token ∈ tokens, token.Sound) : DateFormula :=
  ⟨tokens.map Token.term, rendered tokens .invariant, tokens, h, rfl, rfl⟩

def empty : DateFormula := ofTokens [] fun _ h => absurd h List.not_mem_nil

/-- What `FromText` reads, and in which letters: angle brackets and packed letters name the
invariant ones. -/
def reading (language : Int32) (text : Bytes) : Bytes × Letters :=
  let quoted := text.head? = some Ch.less && text.getLast? = some Ch.greater
  let text := if quoted then (text.drop 1).dropLast else text
  if isPacked text then (unpacked text, .invariant)
  else (text, if quoted then .invariant else Letters.ofLanguage language)

/-- `FromText`. -/
def fromText (language : Int32) (text : Bytes) : Except Refusal DateFormula :=
  match h : tokens (reading language text).1 (reading language text).2 with
  | .error refusal => .error refusal
  | .ok read => .ok (ofTokens read (tokens_sound h))

theorem fromText_of_tokens {language : Int32} {text : Bytes} {read : List Token}
    (h : tokens (reading language text).1 (reading language text).2 = .ok read) :
    fromText language text = .ok (ofTokens read (tokens_sound h)) := by
  unfold fromText
  split
  · rename_i herror
    rw [h] at herror
    cases herror
  · rename_i hread
    rw [h] at hread
    cases hread
    rfl

/-- `ToStorageText`. -/
def toStorageText (formula : DateFormula) : Bytes :=
  match tokens formula.text .invariant with
  | .ok read => rendered read .packed
  | .error _ => formula.text

/-- `Read` of a date formula's column. -/
def ofColumn (language : Int32) (text : Bytes) : DateFormula :=
  if text = [] then empty
  else
    match fromText language text with
    | .ok formula => formula
    | .error _ => empty

/-- The formula's spelling, read again, names its terms. -/
def NamesItsTerms (formula : DateFormula) : Prop :=
  (tokens formula.text .invariant).map (List.map Token.term) = .ok formula.terms

instance (formula : DateFormula) : Decidable formula.NamesItsTerms := inferInstanceAs (Decidable (_ = _))

theorem spelling (formula : DateFormula) : Spelling formula.text := by
  obtain ⟨tokens, hsound, htext, -⟩ := formula.made
  exact ⟨tokens, hsound, htext⟩

@[ext] theorem ext {f g : DateFormula} (hterms : f.terms = g.terms) (htext : f.text = g.text) : f = g := by
  obtain ⟨terms, text, made⟩ := f
  obtain ⟨terms', text', made'⟩ := g
  dsimp only at hterms htext
  subst hterms htext
  rfl

/-- A spelling in packed letters is read in the invariant ones. -/
theorem reading_packed (language : Int32) {read : List Token} (hsound : ∀ token ∈ read, token.Sound)
    (hne : read ≠ []) :
    reading language (rendered read .packed) = (rendered read .invariant, .invariant) := by
  have hquoted : ¬ ((rendered read .packed).head? = some Ch.less) :=
    fun h => less_not_mem_packed hsound (List.mem_of_head? h)
  simp [reading, hquoted, isPacked_rendered hne, unpacked_rendered hsound]

/-- What is read of a formula's column has its spelling, and its terms where the spelling names
them. -/
theorem ofColumn_storage (language : Int32) (formula : DateFormula) :
    (ofColumn language formula.toStorageText).text = formula.text ∧
      (ofColumn language formula.toStorageText = formula ↔ formula.NamesItsTerms) := by
  obtain ⟨read, htokens, htext⟩ := tokens_spelling formula.spelling
  have hsound := tokens_sound htokens
  have hread : ofColumn language formula.toStorageText = ofTokens read hsound := by
    rw [toStorageText, htokens]
    dsimp only
    by_cases hnil : read = []
    · subst hnil
      rfl
    · have hpacked := isPacked_rendered hnil
      have hne : rendered read .packed ≠ [] := by
        intro h
        rw [h] at hpacked
        cases hpacked
      have hreading : tokens (reading language (rendered read .packed)).1
          (reading language (rendered read .packed)).2 =
          .ok read := by rw [reading_packed language hsound hnil, htext, htokens]
      rw [ofColumn, if_neg hne, fromText_of_tokens hreading]
  rw [hread]
  refine ⟨htext, ?_⟩
  rw [NamesItsTerms, htokens]
  constructor
  · intro h
    rw [← h]
    rfl
  · intro h
    exact ext (Except.ok.inj h) htext

end DateFormula
end Agiru.Storage
