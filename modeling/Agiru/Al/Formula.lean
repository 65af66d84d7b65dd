import Agiru.Al.Condition
import Mathlib

/-! The conditions of `#if`, and that the reader finds their value. -/
namespace Agiru.Al.Condition
open Fuel

variable {rest ts : List Char} {n : Nat}
variable {keyword : String} {text after : List Char}

/-! ### What a condition is -/

/-- A condition; a symbol is never defined. -/
inductive Formula
  | symbol (name : List Char)
  | constant (value : Bool)
  | not (formula : Formula)
  | and (left right : Formula)
  | or (left right : Formula)

variable {f : Formula}

def Formula.value : Formula → Bool
  | .symbol _ => false
  | .constant value => value
  | .not formula => !formula.value
  | .and left right => left.value && right.value
  | .or left right => left.value || right.value

inductive Level
  | primary
  | and
  | or

def keywords : List (List Char) :=
  [['n', 'o', 't'], ['a', 'n', 'd'], ['o', 'r'], ['t', 'r', 'u', 'e'], ['f', 'a', 'l', 's', 'e']]

/-- A word is the name of a symbol. -/
structure Symbol (name : List Char) : Prop where
  nonempty : name ≠ []
  part : ∀ c ∈ name, isIdentifierPart c = true
  other : name.map lower ∉ keywords

theorem symbol_of_all {name : List Char}
    (h : name ≠ [] ∧ name.all isIdentifierPart = true ∧ name.map lower ∉ keywords) : Symbol name :=
  ⟨h.1, List.all_eq_true.mp h.2.1, h.2.2⟩

/-- A word is such a keyword, in the case of its letters. -/
def Keyword (word : List Char) (keyword : String) : Prop := word.map lower = keyword.toList

def Blank (text : List Char) : Prop := ∀ c ∈ text, isSpace c = true

/-- No word of a text goes on in the text behind it. -/
def Apart (text after : List Char) : Prop :=
  ∀ c ∈ text.getLast?, ∀ d ∈ after.head?, isIdentifierPart c = true → isIdentifierPart d = false

/-- The texts of a condition, with blanks before every word and parenthesis and with parentheses so many deep:
those that it needs, as `not` binds tighter than `and` and this tighter than `or`, and any others. -/
inductive Spelled : Level → Formula → List Char → Nat → Prop
  | symbol {name blanks : List Char} (hname : Symbol name) (hblanks : Blank blanks) :
    Spelled .primary (.symbol name) (blanks ++ name) 0
  | constant {value : Bool} {word blanks : List Char} (hword : Keyword word (if value then "true" else "false"))
    (hblanks : Blank blanks) : Spelled .primary (.constant value) (blanks ++ word) 0
  | not {f : Formula} {word blanks ts : List Char} {n : Nat} (hword : Keyword word "not") (hblanks : Blank blanks)
    (hapart : Apart word ts) (h : Spelled .primary f ts n) : Spelled .primary (.not f) (blanks ++ word ++ ts) n
  | parentheses {f : Formula} {blanks before ts : List Char} {n : Nat} (hblanks : Blank blanks)
    (hbefore : Blank before) (h : Spelled .or f ts n) :
    Spelled .primary f (blanks ++ '(' :: (ts ++ before ++ [')'])) (n + 1)
  | ofPrimary {f : Formula} {ts : List Char} {n : Nat} (h : Spelled .primary f ts n) : Spelled .and f ts n
  | and {l r : Formula} {word blanks ls rs : List Char} {n m : Nat} (hword : Keyword word "and")
    (hblanks : Blank blanks) (hleft : Apart ls (blanks ++ word)) (hright : Apart word rs)
        (hl : Spelled .and l ls n)
    (hr : Spelled .and r rs m) : Spelled .and (.and l r) (ls ++ (blanks ++ word ++ rs)) (max n m)
  | ofAnd {f : Formula} {ts : List Char} {n : Nat} (h : Spelled .and f ts n) : Spelled .or f ts n
  | or {l r : Formula} {word blanks ls rs : List Char} {n m : Nat} (hword : Keyword word "or")
    (hblanks : Blank blanks) (hleft : Apart ls (blanks ++ word)) (hright : Apart word rs) (hl : Spelled .or l ls n)
    (hr : Spelled .or r rs m) : Spelled .or (.or l r) (ls ++ (blanks ++ word ++ rs)) (max n m)

/-! ### Words -/

theorem part_of_lower {c : Char} (h : isIdentifierPart (lower c) = true) : isIdentifierPart c = true := by
  by_cases hupper : 'A' ≤ c ∧ c ≤ 'Z'
  · have halpha : c.isAlphanum = true := by
      simp only [Char.isAlphanum, Char.isAlpha, Char.isUpper, Bool.or_eq_true, decide_eq_true_eq]
      exact .inl (.inl hupper)
    rw [isIdentifierPart, halpha, Bool.true_or]
  · rwa [lower, if_neg hupper] at h

theorem Keyword.part {word : List Char} (h : Keyword word keyword)
    (hkeyword : keyword.toList.all isIdentifierPart = true) : ∀ c ∈ word, isIdentifierPart c = true := by
  intro c hc
  apply part_of_lower
  apply List.all_eq_true.mp hkeyword
  rw [← h]
  exact List.mem_map_of_mem hc

theorem Keyword.ne_nil {word : List Char} (h : Keyword word keyword) (hne : keyword.toList ≠ []) : word ≠ [] := by
  rintro rfl
  exact hne h.symm

theorem part_code {c : Char} (h : isIdentifierPart c = true) : 48 ≤ c.toNat := by
  simp only [isIdentifierPart, Char.isAlphanum, Char.isAlpha, Char.isUpper, Char.isLower, Char.isDigit,
    Bool.or_eq_true, Bool.and_eq_true, decide_eq_true_eq, UInt32.le_iff_toNat_le, ge_iff_le] at h
  have hcode : c.toNat = c.val.toNat := rfl
  rcases h with ((⟨h, -⟩ | ⟨h, -⟩) | ⟨h, -⟩) | rfl
  · have hupper : 'A'.val.toNat = 65 := rfl
    omega
  · have hlower : 'a'.val.toNat = 97 := rfl
    omega
  · have hzero : '0'.val.toNat = 48 := rfl
    omega
  · decide

theorem space_not_part {c : Char} (h : isSpace c = true) : isIdentifierPart c = false := by
  by_contra hpart
  rw [Bool.not_eq_false] at hpart
  have hcode := part_code hpart
  simp only [isSpace, Bool.or_eq_true, Bool.and_eq_true, decide_eq_true_eq] at h
  rcases h with rfl | ⟨-, h⟩
  · exact absurd hcode (by decide)
  · omega

theorem part_not_space {c : Char} (h : isIdentifierPart c = true) : isSpace c = false := by
  by_contra hspace
  rw [Bool.not_eq_false] at hspace
  exact Bool.false_ne_true ((space_not_part hspace).symm.trans h)

theorem skipSpace_word {blanks word : List Char} (hblanks : Blank blanks) (hne : word ≠ [])
    (hword : ∀ c ∈ word, isIdentifierPart c = true) (rest : List Char) :
    skipSpace (blanks ++ (word ++ rest)) = word ++ rest := by
  obtain ⟨c, word, rfl⟩ := List.exists_cons_of_ne_nil hne
  rw [skipSpace, List.dropWhile_append_of_pos hblanks, List.cons_append, List.dropWhile_cons,
    part_not_space (hword c List.mem_cons_self)]
  rfl

/-- A word behind blanks. -/
theorem readWord_blanks {blanks word : List Char} (hblanks : Blank blanks) (hne : word ≠ [])
    (hword : ∀ c ∈ word, isIdentifierPart c = true) (hrest : ∀ d ∈ rest.head?, isIdentifierPart d = false) :
    readWord (blanks ++ (word ++ rest)) = (word.map lower, rest) := by
  have hstop : rest.takeWhile isIdentifierPart = [] ∧ rest.dropWhile isIdentifierPart = rest := by
    cases rest with
    | nil => exact ⟨rfl, rfl⟩
    | cons d rest =>
      have hd := hrest d rfl
      simp [hd]
  rw [readWord, skipSpace_word hblanks hne hword, List.takeWhile_append_of_pos hword,
    List.dropWhile_append_of_pos hword, hstop.1, hstop.2, List.append_nil]

/-- No word stands before what is none. -/
theorem readWord_none {blanks : List Char} (hblanks : Blank blanks)
    (hrest : ∀ d ∈ rest.head?, isIdentifierPart d = false ∧ isSpace d = false) : (readWord (blanks ++ rest)).1 =
        [] := by
  have hskip : skipSpace (blanks ++ rest) = rest := by
    rw [skipSpace, List.dropWhile_append_of_pos hblanks]
    cases rest with
    | nil => rfl
    | cons d rest =>
      have hd := hrest d rfl
      simp [hd]
  rw [readWord, hskip]
  cases rest with
  | nil => rfl
  | cons d rest =>
    have hd := hrest d rfl
    simp [hd]

/-! ### What does not go on -/

theorem Apart.of_head (h : ∀ d ∈ after.head?, isIdentifierPart d = false) : Apart text after := fun _ _ d hd _ => h d hd

theorem Apart.append (h : Apart text after) (hne : after ≠ []) (rest : List Char) : Apart text (after ++ rest) := by
  obtain ⟨d, after, rfl⟩ := List.exists_cons_of_ne_nil hne
  exact h

theorem Apart.right {more : List Char} (h : Apart (text ++ more) after) (hne : more ≠ []) : Apart more after := by
  intro c hc d hd
  refine h c ?_ d hd
  rw [List.getLast?_append_of_ne_nil _ hne]
  exact hc

/-- What is apart from a word does not begin with a part of one. -/
theorem Apart.head {word : List Char} (h : Apart word after) (hne : word ≠ [])
    (hword : ∀ c ∈ word, isIdentifierPart c = true) : ∀ d ∈ after.head?, isIdentifierPart d = false := by
  intro d hd
  have hlast := List.getLast?_eq_some_getLast hne
  exact h _ hlast d hd (hword _ (List.getLast_mem hne))

/-- Nor does what stands before blanks. -/
theorem Apart.blanks {blanks : List Char} (hblanks : Blank blanks)
    (hafter : ∀ d ∈ after.head?, isIdentifierPart d = false) : Apart text (blanks ++ after) := by
  refine Apart.of_head fun d hd => ?_
  cases blanks with
  | nil => exact hafter d hd
  | cons c blanks =>
    obtain rfl := Option.some.inj hd
    exact space_not_part (hblanks c List.mem_cons_self)

theorem Keyword.length {word : List Char} (h : Keyword word keyword) : word.length = keyword.toList.length := by
  rw [← h, List.length_map]

/-- The word of a row is read off what stands behind it. -/
theorem readWord_keyword {blanks word rs : List Char} (hword : Keyword word keyword)
    (hletters : keyword.toList ≠ [] ∧ keyword.toList.all isIdentifierPart = true) (hblanks : Blank blanks)
    (hright : Apart word rs) (hne : rs ≠ []) (rest : List Char) :
    readWord (blanks ++ (word ++ (rs ++ rest))) = (keyword.toList, rs ++ rest) := by
  have hwordNe := hword.ne_nil hletters.1
  have hpart := hword.part hletters.2
  rw [readWord_blanks hblanks hwordNe hpart ((hright.append hne rest).head hwordNe hpart), hword]

/-! ### The reader -/

/-- A call returns so, with so much fuel or more. -/
def Settles (enough : Nat) (call : Call) (answer : Lex (Bool × List Char)) : Prop :=
  ∀ fuel, enough ≤ fuel → run step fuel call = answer

/-- What a call makes of a condition at a depth. -/
def Formula.answer (f : Formula) (depth n : Nat) (rest : List Char) : Lex (Bool × List Char) :=
  if depth + n < maxDepth then .ok (f.value, rest) else tooDeep

/-- The reader comes from a condition to its value, wherever its text does not go on; in a row of conditions it
goes on with the value that it has come to. -/
def ReadBack (f : Formula) (ts : List Char) (n : Nat) : Level → Prop
  | .primary => ∀ depth rest, Apart ts rest → ∀ fuel, 3 * ts.length ≤ fuel + 2 →
      run step fuel ⟨depth, .primary, ts ++ rest⟩ = f.answer depth n rest
  | .and => ∀ depth rest value enough answer, Apart ts rest →
      (depth + n < maxDepth → Settles enough ⟨depth, .conjuncts (f.value && value), rest⟩ answer) →
      (maxDepth ≤ depth + n → answer = tooDeep) → ∀ fuel, enough + 3 * ts.length ≤ fuel + 2 →
        (run step fuel ⟨depth, .primary, ts ++ rest⟩ >>= fun read =>
          run step fuel ⟨depth, .conjuncts (read.1 && value), read.2⟩) = answer
  | .or => ∀ depth rest value enough answer, Apart ts rest → (readWord rest).1 ≠ ['a', 'n', 'd'] →
      (depth + n < maxDepth → Settles enough ⟨depth, .disjuncts (f.value || value), rest⟩ answer) →
      (maxDepth ≤ depth + n → answer = tooDeep) → ∀ fuel, enough + 3 * ts.length ≤ fuel →
        (run step fuel ⟨depth, .and, ts ++ rest⟩ >>= fun read =>
          run step fuel ⟨depth, .disjuncts (read.1 || value), read.2⟩) = answer

theorem conjuncts_stop {depth : Nat} {value : Bool} (h : (readWord rest).1 ≠ ['a', 'n', 'd']) :
    Settles 1 ⟨depth, .conjuncts value, rest⟩ (.ok (value, rest)) := by
  rintro (_ | fuel) hfuel
  · cases hfuel
  · change readConjuncts _ _ _ _ = _
    exact if_pos h

theorem disjuncts_stop {depth : Nat} {value : Bool} (h : (readWord rest).1 ≠ ['o', 'r']) :
    Settles 1 ⟨depth, .disjuncts value, rest⟩ (.ok (value, rest)) := by
  rintro (_ | fuel) hfuel
  · cases hfuel
  · change readDisjuncts _ _ _ _ = _
    exact if_pos h

theorem tooDeep_bind {α β : Type} (f : α → Lex β) : (tooDeep >>= f) = tooDeep := rfl

/-- A word of a condition. -/
theorem readPrimary_word {rec : Reader} {depth : Nat} {blanks word : List Char} (hblanks : Blank blanks)
    (hne : word ≠ []) (hword : ∀ c ∈ word, isIdentifierPart c = true)
    (hrest : ∀ d ∈ rest.head?, isIdentifierPart d = false) :
    readPrimary rec depth (blanks ++ (word ++ rest)) =
      if maxDepth < depth + 1 then tooDeep
      else if word.map lower = ['n', 'o', 't'] then (rec ⟨depth, .primary, rest⟩ >>= fun read => pure
          (!read.1, read.2))
      else pure (decide (word.map lower = ['t', 'r', 'u', 'e']), rest) := by
  have hread := readWord_blanks hblanks hne hword hrest
  have hopening : (skipSpace (blanks ++ (word ++ rest))).head? ≠ some '(' := by
    rw [skipSpace_word hblanks hne hword]
    obtain ⟨c, word, rfl⟩ := List.exists_cons_of_ne_nil hne
    intro hhead
    obtain rfl := Option.some.inj hhead
    exact absurd (hword _ List.mem_cons_self) (by decide)
  have hmap : word.map lower ≠ [] := by
    simpa using hne
  rw [readPrimary, if_neg hopening, hread]
  dsimp only
  by_cases hnot : word.map lower = ['n', 'o', 't']
  · rw [if_pos hnot, if_pos hnot]
  · rw [if_neg hnot, if_neg hnot]
    by_cases htrue : word.map lower = ['t', 'r', 'u', 'e']
    · rw [if_pos htrue, decide_eq_true htrue]
    · rw [if_neg htrue, if_neg hmap, decide_eq_false htrue]

theorem readBack_word {blanks word : List Char} (hblanks : Blank blanks) (hne : word ≠ [])
    (hword : ∀ c ∈ word, isIdentifierPart c = true) (hnot : word.map lower ≠ ['n', 'o', 't'])
    (hvalue : f.value = decide (word.map lower = ['t', 'r', 'u', 'e'])) : ReadBack f (blanks ++ word) 0
        .primary := by
  rintro depth rest hapart (_ | fuel) hfuel
  · have hlength := List.length_pos_iff.mpr hne
    rw [List.length_append] at hfuel
    omega
  · change readPrimary _ _ _ = _
    rw [List.append_assoc, readPrimary_word hblanks hne hword (hapart.right hne |>.head hne hword), if_neg hnot,
      Formula.answer, hvalue]
    by_cases hdeep : maxDepth < depth + 1
    · rw [if_pos hdeep, if_neg (by omega)]
    · rw [if_neg hdeep, if_pos (by omega)]
      rfl

theorem readBack_not {blanks word : List Char} (hword : Keyword word "not")
    (hblanks : Blank blanks) (hapart : Apart word ts) (hne : ts ≠ []) (h : ReadBack f ts n .primary) :
    ReadBack (.not f) (blanks ++ word ++ ts) n .primary := by
  have hwordNe : word ≠ [] := hword.ne_nil (by decide)
  have hpart : ∀ c ∈ word, isIdentifierPart c = true := hword.part (by decide)
  have hhead : ∀ rest, ∀ d ∈ (ts ++ rest).head?, isIdentifierPart d = false := fun rest =>
    (hapart.append hne rest).head hwordNe hpart
  rintro depth rest hrest (_ | fuel) hfuel
  · have hlength := List.length_pos_iff.mpr hwordNe
    simp only [List.length_append] at hfuel
    omega
  · have hlength : word.length = 3 := hword.length
    have hinner := h depth rest (hrest.right hne) fuel (by
      simp only [List.length_append] at hfuel
      omega)
    change readPrimary _ _ _ = _
    have hmap : word.map lower = ['n', 'o', 't'] := hword
    rw [List.append_assoc, List.append_assoc, readPrimary_word hblanks hwordNe hpart (hhead rest), if_pos hmap, hinner,
      Formula.answer, Formula.answer]
    by_cases hdeep : depth + n < maxDepth
    · rw [if_neg (by omega), if_pos hdeep, if_pos hdeep]
      rfl
    · rw [if_neg hdeep, if_neg hdeep, tooDeep_bind, ite_self]

theorem readBack_parentheses {blanks before : List Char} (hblanks : Blank blanks)
    (hbefore : Blank before) (h : ReadBack f ts n .or) :
    ReadBack f (blanks ++ '(' :: (ts ++ before ++ [')'])) (n + 1) .primary := by
  have hclosing : ∀ rest, ∀ d ∈ (')' :: rest : List Char).head?, isIdentifierPart d = false ∧ isSpace d =
      false := by
    rintro rest d hd
    obtain rfl := Option.some.inj hd
    decide
  have hnone : ∀ rest, (readWord (before ++ ')' :: rest)).1 = [] :=
      fun rest => readWord_none hbefore (hclosing rest)
  have hapart : ∀ rest, Apart ts (before ++ ')' :: rest) :=
      fun rest => Apart.blanks hbefore fun d hd => (hclosing rest d hd).1
  have hskip : ∀ rest, skipSpace (before ++ ')' :: rest) = ')' :: rest := fun rest => by
    rw [skipSpace, List.dropWhile_append_of_pos hbefore]
    rfl
  rintro depth rest - (_ | _ | fuel) hfuel
  · simp only [List.length_append, List.length_cons] at hfuel
    omega
  · simp only [List.length_append, List.length_cons] at hfuel
    omega
  · have hopening : skipSpace (blanks ++ '(' :: (ts ++ before ++ [')']) ++ rest) =
        '(' :: (ts ++ (before ++ ')' :: rest)) := by
      rw [skipSpace, List.append_assoc, List.dropWhile_append_of_pos hblanks]
      simp [isSpace]
    have hinner := h (depth + 1) (before ++ ')' :: rest) false 1
      (f.answer (depth + 1) n (before ++ ')' :: rest)) (hapart rest) (by rw [hnone]; decide)
      (fun hdeep => by
        rw [Bool.or_false, Formula.answer, if_pos hdeep]
        exact disjuncts_stop (by rw [hnone]; decide))
      (fun hdeep => if_neg (Nat.not_lt.mpr hdeep)) fuel (by
        simp only [List.length_append, List.length_cons] at hfuel
        omega)
    simp only [Bool.or_false] at hinner
    have hor : run step (fuel + 1) ⟨depth + 1, .or, ts ++ (before ++ ')' :: rest)⟩ =
        f.answer (depth + 1) n (before ++ ')' :: rest) := hinner
    change readPrimary _ _ _ = _
    have hhead : ('(' :: (ts ++ (before ++ ')' :: rest))).head? = some '(' := rfl
    rw [readPrimary, hopening, if_pos hhead, List.tail_cons, hor, Formula.answer, Formula.answer]
    by_cases hdeep : depth + 1 + n < maxDepth
    · rw [if_neg (by omega), if_pos hdeep, if_pos (by omega)]
      change (pure _ : Lex _) = _
      rw [hskip]
      rfl
    · rw [if_neg hdeep, tooDeep_bind, ite_self, if_neg (by omega)]

theorem readBack_ofPrimary (hne : ts ≠ []) (h : ReadBack f ts n .primary) : ReadBack f ts n .and := by
  intro depth rest value enough answer hapart hshallow hdeep fuel hfuel
  have hpos := List.length_pos_iff.mpr hne
  rw [h depth rest hapart fuel (Nat.le_trans (Nat.le_add_left _ _) hfuel), Formula.answer]
  by_cases hlt : depth + n < maxDepth
  · rw [if_pos hlt]
    exact hshallow hlt fuel (by omega)
  · rw [if_neg hlt, tooDeep_bind, hdeep (Nat.not_lt.mp hlt)]

/-- A row of conditions on one level. -/
theorem readBack_and {l r : Formula} {word blanks ls rs : List Char} {m : Nat} (hword : Keyword word "and")
    (hblanks : Blank blanks) (hleft : Apart ls (blanks ++ word)) (hright : Apart word rs) (hne : rs ≠ [])
    (hl : ReadBack l ls n .and) (hr : ReadBack r rs m .and) :
    ReadBack (.and l r) (ls ++ (blanks ++ word ++ rs)) (max n m) .and := by
  have hwordNe : word ≠ [] := hword.ne_nil (by decide)
  intro depth rest value enough answer hapart hshallow hdeep fuel hfuel
  have htext : ls ++ (blanks ++ word ++ rs) ++ rest = ls ++ (blanks ++ word ++ (rs ++ rest)) := by
    simp only [List.append_assoc]
  have hread := readWord_keyword hword (by decide) hblanks hright hne rest
  rw [htext]
  simp only [List.length_append] at hfuel
  refine hl depth _ value (enough + 3 * rs.length) answer
    (hleft.append (List.append_ne_nil_of_right_ne_nil _ hwordNe) _) (fun hlt => ?_)
        (fun hge => hdeep (by omega)) fuel
    (by omega)
  rintro (_ | fuel) hfuel
  · have hpos := List.length_pos_iff.mpr hne
    omega
  · have hrest : Apart rs rest := by
      rw [← List.append_assoc] at hapart
      exact hapart.right hne
    have hturn := hr depth rest (l.value && value) enough answer hrest (fun hlt' => by
        have hvalue : ((Formula.and l r).value && value) = (r.value && (l.value && value)) := by
          rw [Formula.value]
          cases l.value <;> cases r.value <;> cases value <;> rfl
        rw [← hvalue]
        exact hshallow (by omega))
      (fun hge => hdeep (by omega)) fuel (by omega)
    change readConjuncts _ _ _ _ = _
    rw [readConjuncts, List.append_assoc, hread]
    exact hturn

theorem readBack_ofAnd (hne : ts ≠ []) (h : ReadBack f ts n .and) : ReadBack f ts n .or := by
  have hpos := List.length_pos_iff.mpr hne
  rintro depth rest value enough answer hapart hnone hshallow hdeep (_ | fuel) hfuel
  · omega
  · have hturn := h depth rest true 1 (f.answer depth n rest) hapart
      (fun hlt => by
        rw [Bool.and_true, Formula.answer, if_pos hlt]
        exact conjuncts_stop hnone)
      (fun hge => if_neg (Nat.not_lt.mpr hge)) fuel (by omega)
    simp only [Bool.and_true] at hturn
    have hand : run step (fuel + 1) ⟨depth, .and, ts ++ rest⟩ = f.answer depth n rest := hturn
    rw [hand, Formula.answer]
    by_cases hlt : depth + n < maxDepth
    · rw [if_pos hlt]
      exact hshallow hlt (fuel + 1) (by omega)
    · rw [if_neg hlt, tooDeep_bind, hdeep (Nat.not_lt.mp hlt)]

theorem readBack_or {l r : Formula} {word blanks ls rs : List Char} {m : Nat} (hword : Keyword word "or")
    (hblanks : Blank blanks) (hleft : Apart ls (blanks ++ word)) (hright : Apart word rs) (hne : rs ≠ [])
    (hl : ReadBack l ls n .or) (hr : ReadBack r rs m .or) :
    ReadBack (.or l r) (ls ++ (blanks ++ word ++ rs)) (max n m) .or := by
  have hwordNe : word ≠ [] := hword.ne_nil (by decide)
  have hlength : word.length = 2 := hword.length
  intro depth rest value enough answer hapart hnone hshallow hdeep fuel hfuel
  have htext : ls ++ (blanks ++ word ++ rs) ++ rest = ls ++ (blanks ++ (word ++ (rs ++ rest))) := by
    simp only [List.append_assoc]
  have hread := readWord_keyword hword (by decide) hblanks hright hne rest
  have hbehind := hleft.append (List.append_ne_nil_of_right_ne_nil _ hwordNe) (rs ++ rest)
  rw [List.append_assoc] at hbehind
  rw [htext]
  simp only [List.length_append] at hfuel
  have hor : (readWord (blanks ++ (word ++ (rs ++ rest)))).1 ≠ ['a', 'n', 'd'] := by
    rw [hread]
    exact show "or".toList ≠ ['a', 'n', 'd'] by decide
  refine hl depth _ value (enough + 3 * rs.length + 1) answer hbehind hor (fun hlt => ?_)
    (fun hge => hdeep (by omega)) fuel (by omega)
  rintro (_ | fuel) hfuel
  · omega
  · have hrest : Apart rs rest := by
      rw [← List.append_assoc] at hapart
      exact hapart.right hne
    have hturn := hr depth rest (l.value || value) enough answer hrest hnone (fun hlt' => by
        have hvalue : ((Formula.or l r).value || value) = (r.value || (l.value || value)) := by
          rw [Formula.value]
          cases l.value <;> cases r.value <;> cases value <;> rfl
        rw [← hvalue]
        exact hshallow (by omega))
      (fun hge => hdeep (by omega)) fuel (by omega)
    change readDisjuncts _ _ _ _ = _
    rw [readDisjuncts, hread]
    exact hturn

theorem Spelled.ne_nil {level : Level} (h : Spelled level f ts n) : ts ≠ [] := by
  induction h with
  | symbol hname _ => exact List.append_ne_nil_of_right_ne_nil _ hname.nonempty
  | @constant value _ _ hword _ =>
    exact List.append_ne_nil_of_right_ne_nil _ (hword.ne_nil (by cases value <;> decide))
  | not _ _ _ _ ih => exact List.append_ne_nil_of_right_ne_nil _ ih
  | parentheses _ _ _ _ => exact List.append_ne_nil_of_right_ne_nil _ (List.cons_ne_nil _ _)
  | ofPrimary _ ih | ofAnd _ ih => exact ih
  | and _ _ _ _ _ _ ih _ | or _ _ _ _ _ _ ih _ => exact List.append_ne_nil_of_left_ne_nil ih _

/-- **The reader comes to the value of every condition**, if it goes as deep. -/
theorem Spelled.readBack {level : Level} (h : Spelled level f ts n) : ReadBack f ts n level := by
  induction h with
  | symbol hname hblanks =>
    have hother := hname.other
    exact readBack_word hblanks hname.nonempty hname.part (fun hnot => hother (by rw [hnot]; decide))
      (decide_eq_false fun htrue => hother (by rw [htrue]; decide)).symm
  | @constant value word _ hword hblanks =>
    cases value with
    | true =>
      have hmap : word.map lower = ['t', 'r', 'u', 'e'] := hword
      exact readBack_word hblanks (hword.ne_nil (by decide)) (hword.part (by decide)) (by rw [hmap]; decide)
        (by rw [hmap]; rfl)
    | false =>
      have hmap : word.map lower = ['f', 'a', 'l', 's', 'e'] := hword
      exact readBack_word hblanks (hword.ne_nil (by decide)) (hword.part (by decide)) (by rw [hmap]; decide)
        (by rw [hmap]; rfl)
  | not hword hblanks hapart h ih => exact readBack_not hword hblanks hapart h.ne_nil ih
  | parentheses hblanks hbefore _ ih => exact readBack_parentheses hblanks hbefore ih
  | ofPrimary h ih => exact readBack_ofPrimary h.ne_nil ih
  | and hword hblanks hleft hright _ hr ihl ihr => exact readBack_and hword hblanks hleft hright hr.ne_nil ihl ihr
  | ofAnd h ih => exact readBack_ofAnd h.ne_nil ih
  | or hword hblanks hleft hright _ hr ihl ihr => exact readBack_or hword hblanks hleft hright hr.ne_nil ihl ihr

/-- The text of a condition, with blanks behind it, is evaluated to its value, or is too deep. -/
theorem evaluate_spelled {blanks : List Char} (h : Spelled .or f ts n)
    (hblanks : Blank blanks) : evaluate (ts ++ blanks) = if n < maxDepth then .ok f.value else tooDeep := by
  have hnone : (readWord blanks).1 = [] := by
    have hread := readWord_none hblanks (fun d (hd : d ∈ ([] : List Char).head?) => nomatch hd)
    rwa [List.append_nil] at hread
  have hapart : Apart ts blanks := by
    rw [← List.append_nil blanks]
    exact Apart.blanks hblanks nofun
  have hturn := h.readBack 0 blanks false 1 (f.answer 0 n blanks) hapart (by rw [hnone]; decide)
    (fun hlt => by
      rw [Bool.or_false, Formula.answer, if_pos hlt]
      exact disjuncts_stop (by rw [hnone]; decide))
    (fun hge => if_neg (Nat.not_lt.mpr hge)) (Call.need ⟨0, .or, ts ++ blanks⟩) (by
      simp only [Call.need, Part.rank, List.length_append]
      omega)
  simp only [Bool.or_false] at hturn
  have hor : run step (Call.need ⟨0, .or, ts ++ blanks⟩ + 1) ⟨0, .or, ts ++ blanks⟩ = f.answer 0 n blanks := hturn
  rw [evaluate, hor, Formula.answer, Nat.zero_add]
  split <;> rfl

end Agiru.Al.Condition
