import Agiru.Library.Strip
import Agiru.Text.Positions

/-! Functions that go by the characters of a set.

They look every byte of a text up among the bytes of the set, whose characters share bytes with others. What they
do to a text's characters is right exactly where no byte that matters is shared (`character_sets_iff`). -/
namespace Agiru.Text
open Bytes Utf Strip

variable {text : List Char}

/-! ### The functions -/

/-- `DelChr`. -/
def delChr (s : Bytes) (where_ which : Option Bytes) : Except Bytes Bytes :=
  let where_ := where_.getD (ascii "=")
  let which := which.getD (ascii " ")
  if where_ = [] ∨ which = [] then .ok s
  else if where_.any (· ∉ ascii "=<>") then .error (ascii "DelChr: Where takes only '=', '<' and '>'")
  else if Ch.equals ∈ where_ then .ok (s.filter (· ∉ which))
  else .ok (strip (Ch.less ∈ where_) (Ch.greater ∈ where_) (· ∈ which) s)

/-- What stands where an element stands first, or the element itself. -/
def converted {α : Type} [DecidableEq α] (from_ to_ : List α) (c : α) : α :=
    ((from_.idxOf? c).bind (to_[·]?)).getD c

/-- `ConvertStr`. -/
def convertStr (s from_ to_ : Bytes) : Except Bytes Bytes :=
  if from_.length ≠ to_.length then
    .error (ascii "ConvertStr: FromCharacters and ToCharacters must be the same length")
  else if from_ = [] then .ok s
  else .ok (s.map (converted from_ to_))

inductive TrimSides
  | both | start | end_
  deriving Repr, DecidableEq

def whitespace : Bytes := [32, 9, 10, 11, 12, 13]

/-- `TrimText`. -/
def trimText (s : Bytes) (sides : TrimSides) (chars : Bytes) : Bytes :=
  strip (sides ≠ .end_) (sides ≠ .start) (· ∈ if chars = [] then whitespace else chars) s

/-- `IndexOfAnyText`. -/
def indexOfAnyText (s values : Bytes) (startIndex : Int) : Nat :=
  match (s.drop (startByte s startIndex)).findIdx? (· ∈ values) with
  | none => 0
  | some found => unitOfByte s (startByte s startIndex + found)

/-! ### What they are for -/

/-- A text without the characters that are deleted. -/
def deleted (text : List Char) (where_ : Bytes) (which : List Char) : List Char :=
  if Ch.equals ∈ where_ then text.filter (· ∉ which)
  else strip (Ch.less ∈ where_) (Ch.greater ∈ where_) (· ∈ which) text

/-- `DelChr` deletes the characters of the set, and no others. -/
def DeletesCharacters (text : List Char) (where_ : Option Bytes) (which : Option (List Char)) : Prop :=
  (∀ b ∈ where_.getD (ascii "="), b ∈ ascii "=<>") →
    delChr (utf8 text) where_ (which.map utf8) = .ok (utf8 (deleted text (where_.getD (ascii "="))
        (which.getD [' '])))

/-- `ConvertStr` refuses sets of different lengths, and converts each character of the text. -/
def ConvertsCharacters (text from_ to_ : List Char) : Prop :=
  if from_.length ≠ to_.length then ∃ message, convertStr (utf8 text) (utf8 from_) (utf8 to_) = .error message
  else convertStr (utf8 text) (utf8 from_) (utf8 to_) = .ok (utf8 (text.map (converted from_ to_)))

/-- The characters that are trimmed: blanks, where none are given. -/
def trimmed (chars : List Char) : List Char := if chars = [] then whitespace.map fun b => Char.ofNat b.toNat
    else chars

/-- `TrimText` strips the characters of the set off the ends. -/
def TrimsCharacters (text : List Char) (sides : TrimSides) (chars : List Char) : Prop :=
  trimText (utf8 text) sides (utf8 chars) = utf8 (strip (sides ≠ .end_) (sides ≠ .start) (· ∈ trimmed chars) text)

/-- The UTF-16 position of the first character of a set from a position on, or zero. -/
def firstOf (start : Int) (values : List Char) (here : Nat) : List Char → Nat
  | [] => 0
  | c :: rest =>
    if start ≤ here ∧ c ∈ values then here else firstOf start values (here + (pointUnits c.toNat).length) rest

/-- `IndexOfAnyText` finds the first character of the set. -/
def FindsCharacter (text values : List Char) (startIndex : Int) : Prop :=
  indexOfAnyText (utf8 text) (utf8 values) startIndex = firstOf startIndex values 1 text

/-! ### Shared bytes -/

/-- A character of the set, or one that has no byte in common with the set's characters. -/
def Apart (set : List Char) (c : Char) : Prop := c ∈ set ∨ ∀ b ∈ utf8 [c], b ∉ utf8 set

/-- The first character from the left, and from the right, that is not of the set begins, and ends, with a byte
that no character of the set has. -/
def EndsApart (left right : Bool) (set text : List Char) : Prop :=
  (left = true → ∀ c, (text.dropWhile (· ∈ set)).head? = some c → ∀ b, (utf8 [c]).head? = some b → b ∉ utf8 set) ∧
    (right = true →
      ∀ c, (text.rdropWhile (· ∈ set)).getLast? = some c → ∀ b, (utf8 [c]).getLast? = some b → b ∉ utf8 set)

theorem utf8_singleton (c : Char) : utf8 [c] = point c.toNat := by
  rw [utf8_cons, utf8_nil, List.append_nil]

theorem utf8_cons_singleton (c : Char) (text : List Char) : utf8 (c :: text) = utf8 [c] ++ utf8 text := by
  rw [utf8_singleton, utf8_cons]

theorem mem_utf8 {b : UInt8} : b ∈ utf8 text ↔ ∃ c ∈ text, b ∈ utf8 [c] := by
  induction text with
  | nil => simp
  | cons c rest ih =>
    rw [utf8_cons_singleton, List.mem_append, ih]
    simp

theorem utf8_ne_nil (c : Char) : utf8 [c] ≠ [] := by
  obtain ⟨first, rest, hpoint, -⟩ := point_shape (scalar_lt c)
  rw [utf8_singleton, hpoint]
  exact List.cons_ne_nil _ _

@[simp] theorem utf8_eq_nil_iff : utf8 text = [] ↔ text = [] := by
  cases text with
  | nil => exact iff_of_true rfl rfl
  | cons c rest =>
    rw [utf8_cons_singleton]
    exact iff_of_false (List.append_ne_nil_of_left_ne_nil (utf8_ne_nil c) _) (List.cons_ne_nil c rest)

/-! ### Everywhere -/

theorem filter_length_le (which text : List Char) :
    ((utf8 text).filter (· ∉ utf8 which)).length ≤ (utf8 (text.filter (· ∉ which))).length := by
  induction text with
  | nil => exact Nat.le_refl 0
  | cons c rest ih =>
    rw [utf8_cons_singleton c rest, List.filter_append, List.length_append]
    by_cases hc : c ∈ which
    · have hnone : (utf8 [c]).filter (· ∉ utf8 which) = [] := by
        rw [List.filter_eq_nil_iff]
        intro b hb
        simpa using mem_utf8.mpr ⟨c, hc, hb⟩
      rw [hnone, List.filter_cons_of_neg (by simpa using hc)]
      simpa using ih
    · rw [List.filter_cons_of_pos (by simpa using hc), utf8_cons_singleton c (rest.filter _), List.length_append]
      exact Nat.add_le_add (List.length_filter_le _ _) ih

theorem filter_iff (which text : List Char) :
    (utf8 text).filter (· ∉ utf8 which) = utf8 (text.filter (· ∉ which)) ↔ ∀ c ∈ text, Apart which c := by
  induction text with
  | nil => exact iff_of_true rfl nofun
  | cons c rest ih =>
    rw [List.forall_mem_cons, utf8_cons_singleton c rest, List.filter_append]
    by_cases hc : c ∈ which
    · have hnone : (utf8 [c]).filter (· ∉ utf8 which) = [] := by
        rw [List.filter_eq_nil_iff]
        intro b hb
        simpa using mem_utf8.mpr ⟨c, hc, hb⟩
      rw [hnone, List.filter_cons_of_neg (by simpa using hc), List.nil_append, ih]
      exact (and_iff_right (.inl hc)).symm
    · have hapart : Apart which c ↔ (utf8 [c]).filter (· ∉ utf8 which) = utf8 [c] := by
        rw [Apart, or_iff_right hc, List.filter_eq_self]
        simp
      rw [List.filter_cons_of_pos (by simpa using hc), utf8_cons_singleton c (rest.filter _), hapart, ← ih]
      refine ⟨fun h => ?_, fun h => by rw [h.1, h.2]⟩
      -- neither part is longer than it should be
      have hfirst := List.length_filter_le (· ∉ utf8 which) (utf8 [c])
      have hrest := filter_length_le which rest
      have hlength := congrArg List.length h
      rw [List.length_append, List.length_append] at hlength
      exact List.append_inj h (by omega)

/-! ### At the ends -/

theorem utf8_head? (text : List Char) : (utf8 text).head? = text.head?.bind fun c => (utf8 [c]).head? := by
  cases text with
  | nil => rfl
  | cons c rest =>
    rw [utf8_cons_singleton c rest, List.head?_append_of_ne_nil _ (utf8_ne_nil c)]
    rfl

theorem utf8_getLast? (text : List Char) :
    (utf8 text).getLast? = text.getLast?.bind fun c => (utf8 [c]).getLast? := by
  induction text using List.reverseRecOn with
  | nil => rfl
  | append_singleton rest c =>
    rw [utf8_append, List.getLast?_append_of_ne_nil _ (utf8_ne_nil c), List.getLast?_concat]
    rfl

theorem strip_iff (left right : Bool) (set text : List Char) :
    strip left right (· ∈ utf8 set) (utf8 text) = utf8 (strip left right (· ∈ set) text) ↔
      EndsApart left right set text := by
  obtain ⟨front, back, hsplit, hfront, hback, hleft, hright⟩ := strip_split left right (· ∈ set) text
  have hbytes : ∀ part : List Char, (∀ c ∈ part, decide (c ∈ set) = true) →
      ∀ b ∈ utf8 part, decide (b ∈ utf8 set) = true := by
    intro part hpart b hb
    obtain ⟨c, hc, hbc⟩ := mem_utf8.mp hb
    exact decide_eq_true (mem_utf8.mpr ⟨c, of_decide_eq_true (hpart c hc), hbc⟩)
  have hutf8 : utf8 text = utf8 front ++ utf8 (strip left right (· ∈ set) text) ++ utf8 back := by
    rw [← utf8_append, ← utf8_append, ← hsplit]
  rw [hutf8, strip_surrounded (hbytes front hfront) (hbytes back hback) (fun h => by rw [hleft h]; rfl)
    (fun h => by rw [hright h]; rfl), strip_eq_self_iff, utf8_head?, utf8_getLast?]
  refine and_congr (forall_congr' fun h => ?_) (forall_congr' fun h => ?_)
  · rw [strip_head? h]
    simp only [Option.bind_eq_some_iff, decide_eq_false_iff_not, forall_exists_index, and_imp]
    exact ⟨fun h c hc b hb => h b c hc hb, fun h b c hc hb => h c hc b hb⟩
  · rw [strip_getLast? h]
    simp only [Option.bind_eq_some_iff, decide_eq_false_iff_not, forall_exists_index, and_imp]
    exact ⟨fun h c hc b hb => h b c hc hb, fun h b c hc hb => h c hc b hb⟩

theorem delChr_eq (s : Bytes) {where_ : Option Bytes} (which : Option Bytes)
    (h : ∀ b ∈ where_.getD (ascii "="), b ∈ ascii "=<>") : delChr s where_ which =
      .ok (if Ch.equals ∈ where_.getD (ascii "=") then s.filter (· ∉ which.getD (ascii " "))
        else strip (Ch.less ∈ where_.getD (ascii "=")) (Ch.greater ∈ where_.getD (ascii "="))
          (· ∈ which.getD (ascii " ")) s) := by
  unfold delChr
  generalize where_.getD (ascii "=") = sides at h
  generalize which.getD (ascii " ") = set
  dsimp only
  by_cases hnone : sides = [] ∨ set = []
  · rw [if_pos hnone]
    rcases hnone with rfl | rfl
    · rfl
    · congr 1
      split
      · simp
      · exact (strip_eq_self_iff.mpr ⟨fun _ _ _ => by simp, fun _ _ _ => by simp⟩).symm
  · have hknown : ¬ sides.any (· ∉ ascii "=<>") = true := by
      rw [List.any_eq_true]
      rintro ⟨b, hb, hout⟩
      exact of_decide_eq_true hout (h b hb)
    rw [if_neg hnone, if_neg hknown]
    split <;> rfl

theorem deletesCharacters_iff (text : List Char) (where_ : Option Bytes) (which : Option (List Char)) :
    DeletesCharacters text where_ which ↔ ((∀ b ∈ where_.getD (ascii "="), b ∈ ascii "=<>") →
      if Ch.equals ∈ where_.getD (ascii "=") then ∀ c ∈ text, Apart (which.getD [' ']) c
      else EndsApart (Ch.less ∈ where_.getD (ascii "=")) (Ch.greater ∈ where_.getD (ascii "="))
          (which.getD [' ']) text) := by
  refine imp_congr_right fun hwhere => ?_
  have hwhich : (which.map utf8).getD (ascii " ") = utf8 (which.getD [' ']) := by
    cases which <;> rfl
  rw [delChr_eq _ _ hwhere, hwhich, Except.ok.injEq, deleted]
  by_cases hall : Ch.equals ∈ where_.getD (ascii "=")
  · rw [if_pos hall, if_pos hall, if_pos hall]
    exact filter_iff _ _
  · rw [if_neg hall, if_neg hall, if_neg hall]
    exact strip_iff _ _ _ _

/-- The characters that are trimmed have the bytes that are. -/
theorem utf8_trimmed (chars : List Char) : (if utf8 chars = [] then whitespace else utf8 chars) =
    utf8 (trimmed chars) := by
  unfold trimmed
  by_cases h : chars = []
  · rw [if_pos (utf8_eq_nil_iff.mpr h), if_pos h]
    decide
  · rw [if_neg (mt utf8_eq_nil_iff.mp h), if_neg h]

theorem trimsCharacters_iff (text : List Char) (sides : TrimSides) (chars : List Char) :
    TrimsCharacters text sides chars ↔ EndsApart (sides ≠ .end_) (sides ≠ .start) (trimmed chars) text := by
  rw [TrimsCharacters, trimText, utf8_trimmed]
  exact strip_iff _ _ _ _

/-! ### Conversion -/

/-- The bytes of a character are converted to those of the character that it is converted to. -/
def Aligned (from_ to_ : List Char) (c : Char) : Prop :=
  (utf8 [c]).map (converted (utf8 from_) (utf8 to_)) = utf8 [converted from_ to_ c]

theorem convertStr_eq {from_ to_ : Bytes} (h : from_.length = to_.length) (s : Bytes) :
    convertStr s from_ to_ = .ok (s.map (converted from_ to_)) := by
  rw [convertStr, if_neg (not_not.mpr h)]
  split
  · next hnil =>
    rw [hnil]
    exact congrArg _ (List.map_id s).symm
  · rfl

theorem convertsCharacters_iff (text from_ to_ : List Char) : (∀ t, t <+: text → ConvertsCharacters t from_ to_) ↔
    if from_.length ≠ to_.length then (utf8 from_).length ≠ (utf8 to_).length
    else (utf8 from_).length = (utf8 to_).length ∧ ∀ c ∈ text, Aligned from_ to_ c := by
  by_cases hlength : from_.length = to_.length
  · simp only [ConvertsCharacters, if_neg (not_not.mpr hlength)]
    constructor
    · intro h
      have hbytes : (utf8 from_).length = (utf8 to_).length := by
        by_contra hne
        have hempty := h [] List.nil_prefix
        rw [convertStr, if_pos hne] at hempty
        cases hempty
      refine ⟨hbytes, ?_⟩
      induction text using List.reverseRecOn with
      | nil => exact nofun
      | append_singleton rest c ih =>
        have hrest := h rest (List.prefix_append _ _)
        have hwhole := h (rest ++ [c]) List.prefix_rfl
        rw [convertStr_eq hbytes] at hrest hwhole
        rw [utf8_append, List.map_append, List.map_append, utf8_append, Except.ok.inj hrest] at hwhole
        rw [List.forall_mem_append, List.forall_mem_singleton]
        exact ⟨ih fun t ht => h t (ht.trans (List.prefix_append _ _)), List.append_cancel_left (Except.ok.inj hwhole)⟩
    · rintro ⟨hbytes, haligned⟩ t ht
      rw [convertStr_eq hbytes]
      congr 1
      have hpart : ∀ c ∈ t, Aligned from_ to_ c := fun c hc => haligned c (ht.subset hc)
      clear ht
      induction t with
      | nil => rfl
      | cons c rest ih =>
        obtain ⟨hc, hrest⟩ := List.forall_mem_cons.mp hpart
        rw [utf8_cons_singleton c rest, List.map_append, List.map_cons, utf8_cons_singleton _ (rest.map _), ih hrest]
        exact congrArg (· ++ _) hc
  · simp only [ConvertsCharacters, if_pos hlength]
    constructor
    · intro h hbytes
      obtain ⟨message, hmessage⟩ := h [] List.nil_prefix
      rw [convertStr_eq hbytes] at hmessage
      cases hmessage
    · intro hbytes t _
      exact ⟨_, by rw [convertStr, if_pos hbytes]⟩

/-! ### The first character -/

/-- The first of the characters that have bytes in common with the set is of the set; or it begins with a byte of
its own, and the next one is of the set. -/
def Hits (values : List Char) : List Char → Prop
  | [] => True
  | c :: rest => c ∈ values ∨
    if ∃ b ∈ utf8 [c], b ∈ utf8 values then
      (∀ b, (utf8 [c]).head? = some b → b ∉ utf8 values) ∧ ∃ d, rest.head? = some d ∧ d ∈ values
    else Hits values rest

/-- From the start on the characters hit the set; inside a surrogate pair, no character behind it is of the set. -/
def FindsApart (text values : List Char) (startIndex : Int) : Prop :=
  (InsidePair text startIndex.toNat → ∀ before c after, text = before ++ c :: after →
      startIndex ≤ (utf16 before).length + 1 → c ∉ values) ∧
    ∀ before after, text = before ++ after → ((utf16 before).length : Int) + 1 = max 1 startIndex →
        Hits values after

theorem InsidePair.two_le {unit : Nat} (h : InsidePair text unit) : 2 ≤ unit := by
  obtain ⟨before, c, after, -, -, rfl⟩ := h
  exact Nat.le_add_left 2 _

section firstOf
variable {start : Int} {values : List Char} {here : Nat}

theorem firstOf_skip {before : List Char} (h : (here : Int) + (utf16 before).length ≤ start) (after : List Char) :
    firstOf start values here (before ++ after) = firstOf start values (here + (utf16 before).length) after := by
  induction before generalizing here with
  | nil => rfl
  | cons c rest ih =>
    have hpos := pointUnits_length_pos c.toNat
    rw [utf16_cons, List.length_append] at h ⊢
    rw [List.cons_append, firstOf, if_neg (fun hc => by omega), ih (by omega), Nat.add_assoc]

theorem firstOf_bound (start : Int) (values : List Char) (here : Nat) (text : List Char) :
    firstOf start values here text = 0 ∨ here ≤ firstOf start values here text := by
  induction text generalizing here with
  | nil => exact .inl rfl
  | cons c rest ih =>
    rw [firstOf]
    split
    · exact .inr (Nat.le_refl _)
    · exact (ih (here + (pointUnits c.toNat).length)).imp_right fun h => by omega

/-- The position itself is found exactly if the character there is of the set. -/
theorem firstOf_eq_here_iff (hstart : start ≤ here) (hpos : 0 < here) (text : List Char) :
    firstOf start values here text = here ↔ ∃ d, text.head? = some d ∧ d ∈ values := by
  cases text with
  | nil => exact iff_of_false (fun h => by rw [firstOf] at h; omega) nofun
  | cons c rest =>
    have hunits := pointUnits_length_pos c.toNat
    rw [firstOf, List.head?_cons]
    simp only [Option.some.injEq, exists_eq_left']
    by_cases hc : c ∈ values
    · rw [if_pos ⟨hstart, hc⟩]
      exact iff_of_true rfl hc
    · rw [if_neg (fun h => hc h.2)]
      refine iff_of_false (fun h => ?_) hc
      rcases firstOf_bound start values (here + (pointUnits c.toNat).length) rest with hzero | hle <;> omega

theorem firstOf_eq_zero_iff (hpos : 0 < here) (text : List Char) : firstOf start values here text = 0 ↔
    ∀ before c after, text = before ++ c :: after → start ≤ here + (utf16 before).length → c ∉ values := by
  induction text generalizing here with
  | nil => exact iff_of_true rfl fun before c after h => by simp at h
  | cons c rest ih =>
    rw [firstOf]
    by_cases hc : start ≤ here ∧ c ∈ values
    · rw [if_pos hc]
      exact iff_of_false (by omega) fun h => h [] c rest rfl (by simpa using hc.1) hc.2
    · rw [if_neg hc, ih (by omega)]
      constructor
      · intro h before d after hsplit hle
        cases before with
        | nil =>
          obtain ⟨rfl, rfl⟩ := List.cons.inj hsplit
          exact fun hd => hc ⟨by simpa using hle, hd⟩
        | cons e before =>
          obtain ⟨rfl, rfl⟩ := List.cons.inj hsplit
          refine h before d after rfl ?_
          rw [utf16_cons, List.length_append] at hle
          omega
      · intro h before d after hsplit hle
        refine h (c :: before) d after (by rw [hsplit]; rfl) ?_
        rw [utf16_cons, List.length_append]
        omega

end firstOf

/-- What is found in the bytes from a position on. -/
def foundFrom (values : Bytes) (here : Nat) (s : Bytes) : Nat :=
  match s.findIdx? (· ∈ values) with
  | none => 0
  | some found => here + utf16Length (s.take found)

/-- Any beginning of a character's bytes counts as the character. -/
theorem utf16Length_take (c : Char) {n : Nat} (hpos : 0 < n) : utf16Length ((utf8 [c]).take n) =
    (pointUnits c.toNat).length := by
  obtain ⟨first, rest, hpoint, hfirst, hrest, hunits⟩ := point_shape (scalar_lt c)
  obtain ⟨m, rfl⟩ := Nat.exists_eq_succ_of_ne_zero (Nat.ne_of_gt hpos)
  have hcontinues : utf16Length (rest.take m) = 0 := by
    rw [← List.append_nil (rest.take m), utf16Length_continues (fun b hb => hrest b (List.mem_of_mem_take hb))]
    rfl
  rw [utf8_singleton, hpoint, List.take_succ_cons, utf16Length, if_neg (mt (isContinuation_iff first).mp hfirst),
    hcontinues, unitsOf_eq, ← hunits]
  rfl

theorem foundFrom_shared {values : Bytes} {c : Char} {found : Nat}
    (h : (utf8 [c]).findIdx? (· ∈ values) = some found)
    (here : Nat) (rest : List Char) :
    foundFrom values here (utf8 (c :: rest)) = here + utf16Length ((utf8 [c]).take found) := by
  have hlt : found < (utf8 [c]).length := (List.findIdx?_eq_some_iff_getElem.mp h).1
  rw [foundFrom, utf8_cons_singleton c rest, List.findIdx?_append, h]
  simp only [Option.some_or]
  rw [List.take_append_of_le_length (Nat.le_of_lt hlt)]

theorem foundFrom_passed {values : Bytes} {c : Char} (h : (utf8 [c]).findIdx? (· ∈ values) = none) (here : Nat)
    (rest : List Char) :
    foundFrom values here (utf8 (c :: rest)) = foundFrom values (here + (pointUnits c.toNat).length)
        (utf8 rest) := by
  rw [foundFrom, foundFrom, utf8_cons_singleton c rest, List.findIdx?_append, h, Option.none_or]
  cases (utf8 rest).findIdx? (· ∈ values) with
  | none => rfl
  | some found =>
    simp only [Option.map_some]
    have hunits := utf16Length_utf8_append [c] ((utf8 rest).take found)
    rw [Nat.add_comm found, List.take_length_add_append, hunits, Nat.add_assoc, utf16_cons, utf16_nil, List.append_nil]

theorem foundFrom_iff {start : Int} {values : List Char} {here : Nat} (hstart : start ≤ here) (hpos : 0 < here)
    (text : List Char) :
    foundFrom (utf8 values) here (utf8 text) = firstOf start values here text ↔ Hits values text := by
  induction text generalizing here with
  | nil => exact iff_of_true rfl trivial
  | cons c rest ih =>
    have hunits := pointUnits_length_pos c.toNat
    obtain ⟨first, tail, hbytes⟩ := List.exists_cons_of_ne_nil (utf8_ne_nil c)
    rw [firstOf, Hits]
    by_cases hc : c ∈ values
    · -- every byte of the character is one of the set's
      have hfirst : first ∈ utf8 values := mem_utf8.mpr ⟨c, hc, by rw [hbytes]; exact List.mem_cons_self⟩
      have hfound : (utf8 [c]).findIdx? (· ∈ utf8 values) = some 0 := by
        rw [hbytes, List.findIdx?_cons, if_pos (decide_eq_true hfirst)]
      rw [foundFrom_shared hfound, if_pos ⟨hstart, hc⟩]
      exact iff_of_true rfl (.inl hc)
    · rw [if_neg (fun h => hc h.2), or_iff_right hc]
      by_cases hshared : ∃ b ∈ utf8 [c], b ∈ utf8 values
      · rw [if_pos hshared]
        obtain ⟨found, hfound⟩ : ∃ found, (utf8 [c]).findIdx? (· ∈ utf8 values) = some found := by
          rw [← Option.isSome_iff_exists, List.findIdx?_isSome, List.any_eq_true]
          simpa using hshared
        rw [foundFrom_shared hfound]
        by_cases hfirst : first ∈ utf8 values
        · obtain rfl : found = 0 := by
            rw [hbytes, List.findIdx?_cons, if_pos (decide_eq_true hfirst)] at hfound
            exact (Option.some.inj hfound).symm
          refine iff_of_false (fun heq => ?_) fun h => h.1 first (by rw [hbytes]; rfl) hfirst
          rw [List.take_zero] at heq
          rcases firstOf_bound start values (here + (pointUnits c.toNat).length) rest with hzero | hle
          · rw [hzero, utf16Length] at heq
            omega
          · rw [utf16Length] at heq
            omega
        · have hlater : 0 < found := by
            rw [hbytes, List.findIdx?_cons, if_neg (by simpa using hfirst)] at hfound
            obtain ⟨m, -, rfl⟩ := Option.map_eq_some_iff.mp hfound
            exact Nat.succ_pos m
          rw [utf16Length_take c hlater, eq_comm, firstOf_eq_here_iff (by omega) (by omega)]
          refine (and_iff_right fun b hb => ?_).symm
          rw [hbytes] at hb
          rwa [← Option.some.inj hb]
      · have hnone : (utf8 [c]).findIdx? (· ∈ utf8 values) = none := by
          rw [List.findIdx?_eq_none_iff]
          intro b hb
          exact decide_eq_false fun hmem => hshared ⟨b, hb, hmem⟩
        rw [if_neg hshared, foundFrom_passed hnone]
        exact ih (by omega) (by omega)

theorem indexOfAnyText_eq {before after : List Char} {startIndex : Int}
    (h : startByte (utf8 (before ++ after)) startIndex = (utf8 before).length) (values : Bytes) :
    indexOfAnyText (utf8 (before ++ after)) values startIndex =
      foundFrom values (1 + (utf16 before).length) (utf8 after) := by
  rw [indexOfAnyText, h, utf8_append, List.drop_left, foundFrom]
  cases hfound : (utf8 after).findIdx? (· ∈ values) with
  | none => rfl
  | some found =>
    have hlt : found < (utf8 after).length := (List.findIdx?_eq_some_iff_getElem.mp hfound).1
    dsimp only
    rw [unitOfByte, Nat.min_eq_left (by rw [List.length_append]; omega), List.take_length_add_append,
      utf16Length_utf8_append]
    omega

theorem findsCharacter_iff (text values : List Char) (startIndex : Int) :
    FindsCharacter text values startIndex ↔ FindsApart text values startIndex := by
  obtain ⟨unit, hunit, hstart⟩ : ∃ unit : Nat, (unit : Int) = max 1 startIndex ∧
      ∀ s, startByte s startIndex = byteFrom unit 1 0 s := by
    by_cases h : startIndex < 1
    · exact ⟨1, by omega, fun s => by rw [startByte, if_pos h]; rfl⟩
    · exact ⟨startIndex.toNat, by omega, fun s => by rw [startByte, if_neg h]; rfl⟩
  obtain ⟨before, after, rfl, hbyte, hcut⟩ := byteFrom_eq (show 1 ≤ unit by omega) 0 text
  rw [Nat.zero_add, ← hstart] at hbyte
  rw [FindsCharacter, FindsApart, indexOfAnyText_eq hbyte]
  rcases hcut with hcut | ⟨rfl, hcut⟩
  · -- the start is where the rest begins
    have hspec : firstOf startIndex values 1 (before ++ after) =
        firstOf startIndex values (1 + (utf16 before).length) after := by
      by_cases h : startIndex < 1
      · have hbefore : before = [] := by
          cases before with
          | nil => rfl
          | cons c rest =>
            have := pointUnits_length_pos c.toNat
            rw [utf16_cons, List.length_append] at hcut
            omega
        rw [hbefore]
        rfl
      · exact firstOf_skip (by omega) after
    rw [hspec, foundFrom_iff (by omega) (by omega)]
    constructor
    · refine fun hhits => ⟨fun hinside => ?_, fun before' after' hsplit hlength => ?_⟩
      · have htwo := hinside.two_le
        rw [show startIndex.toNat = (utf16 before).length + 1 by omega] at hinside
        exact absurd hinside not_insidePair
      · obtain ⟨part, hpart, rfl⟩ := beginning_of_units hsplit (by omega)
        have hnil : part = [] := by
          cases part with
          | nil => rfl
          | cons c rest =>
            have := pointUnits_length_pos c.toNat
            rw [hpart, utf16_append, utf16_cons, List.length_append, List.length_append] at hlength
            omega
        rwa [hnil] at hhits
    · exact fun h => h.2 before after rfl (by omega)
  · rw [List.append_nil] at hcut ⊢
    have hnone : foundFrom (utf8 values) (1 + (utf16 before).length) (utf8 []) = 0 := rfl
    rw [hnone, eq_comm, firstOf_eq_zero_iff (by omega)]
    rcases hcut with hinside | hpast
    · -- inside a pair the code finds the end of the text
      have htwo := hinside.two_le
      have hstart : startIndex.toNat = unit - 1 + 1 := by omega
      rw [hstart]
      refine ⟨fun h => ⟨fun _ before' c after hsplit hle => h before' c after hsplit (by omega), ?_⟩,
        fun h before' c after hsplit hle => h.1 hinside before' c after hsplit (by omega)⟩
      intro before' after hsplit hlength
      rw [hsplit, show unit - 1 + 1 = (utf16 before').length + 1 by omega] at hinside
      exact absurd hinside not_insidePair
    · refine iff_of_true (fun before' c after hsplit hle => ?_)
        ⟨fun hinside => ?_, fun before' after hsplit hlength => ?_⟩
      · rw [hsplit, utf16_append, List.length_append] at hpast
        omega
      · have := hinside.le
        omega
      · rw [hsplit, utf16_append, List.length_append] at hpast
        omega

/-- **When the functions go by characters**: where the characters of a text that are not of the set have no byte of
the set's, at the places that are looked at; where sets that are converted have as many bytes as each other exactly
if they have as many characters, and each character is converted byte by byte to its own; and where the first
character that has bytes of the set is of the set, or the next one is and only the first one's later bytes are. -/
theorem character_sets_iff (text : List Char) (where_ : Option Bytes) (which : Option (List Char))
    (from_ to_ chars values : List Char) (sides : TrimSides) (startIndex : Int) :
    (DeletesCharacters text where_ which ↔ ((∀ b ∈ where_.getD (ascii "="), b ∈ ascii "=<>") →
        if Ch.equals ∈ where_.getD (ascii "=") then ∀ c ∈ text, Apart (which.getD [' ']) c
        else EndsApart (Ch.less ∈ where_.getD (ascii "=")) (Ch.greater ∈ where_.getD (ascii "="))
            (which.getD [' ']) text)) ∧
      ((∀ t, t <+: text → ConvertsCharacters t from_ to_) ↔
        if from_.length ≠ to_.length then (utf8 from_).length ≠ (utf8 to_).length
        else (utf8 from_).length = (utf8 to_).length ∧ ∀ c ∈ text, Aligned from_ to_ c) ∧
      (TrimsCharacters text sides chars ↔ EndsApart (sides ≠ .end_) (sides ≠ .start) (trimmed chars) text) ∧
      (FindsCharacter text values startIndex ↔ FindsApart text values startIndex) :=
  ⟨deletesCharacters_iff text where_ which, convertsCharacters_iff text from_ to_, trimsCharacters_iff text sides chars,
    findsCharacter_iff text values startIndex⟩

/-- `é` and `è` begin with the same byte, so that the one loses it where the other is deleted. -/
theorem delChr_splits : ¬ ∀ text where_ which, DeletesCharacters text where_ which := by
  intro h
  have hdelete := h ['é'] none (some ['è']) fun b hb => List.mem_cons.mpr (.inl (List.mem_singleton.mp hb))
  rw [show delChr (utf8 ['é']) none ((some ['è']).map utf8) = .ok [0xA9] by decide] at hdelete
  exact absurd (Except.ok.inj hdelete) (by decide)

end Agiru.Text
