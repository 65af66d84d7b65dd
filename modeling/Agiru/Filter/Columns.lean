import Agiru.Filter.Agreement

/-! The types of the columns, and on which filters the two ways agree (`clause_agrees`). -/
namespace Agiru.Filter
open Bytes Glob
open Storage (normaliseCode memberOrdinal_intText)

variable {operand : Bytes} {atom : Atom}

/-! ### Numbers -/

theorem signed_append {text : Bytes} (hne : text ≠ []) (behind : Bytes) :
    signed (text ++ behind) = ((signed text).1, (signed text).2 ++ behind) := by
  obtain ⟨c, rest, rfl⟩ := List.exists_cons_of_ne_nil hne
  rw [List.cons_append, signed, signed]
  split
  · rfl
  · split <;> rfl

/-- What trimming leaves at the front. -/
theorem trim_append (text : Bytes) :
    ∃ spaces, text.dropWhile isSpace = trim text ++ spaces ∧ ∀ c ∈ spaces, isSpace c = true :=
  ⟨_, List.rdropWhile_append_rtakeWhile.symm, fun _ hc => List.mem_rtakeWhile_imp hc⟩

/-- `std::stoll` reads a sign and digits. -/
theorem stoll_eq (text : Bytes) : stoll text =
    let digits := (signed (text.dropWhile isSpace)).2.takeWhile isDigit
    let number : Int :=
      if (signed (text.dropWhile isSpace)).1 then -(digitsValue digits : Nat) else (digitsValue digits : Nat)
    if digits = [] then none else if -2 ^ 63 ≤ number ∧ number < 2 ^ 63 then some number else none := by
  unfold stoll signed digitsValue
  rfl

theorem readInteger_some {low high n : Int} {text : Bytes} (h : readInteger low high text = some n) :
    (signed (trim text)).2 ≠ [] ∧ Digits (signed (trim text)).2 ∧
      n = (if (signed (trim text)).1 then -(digitsValue (signed (trim text)).2 : Nat)
        else (digitsValue (signed (trim text)).2 : Nat) : Int) ∧ low ≤ n ∧ n ≤ high := by
  unfold readInteger at h
  dsimp only at h
  by_cases hdigits : (decide ((signed (trim text)).2 = []) || !(signed (trim text)).2.all isDigit) = true
  · rw [if_pos hdigits] at h
    cases h
  · rw [if_neg hdigits] at h
    obtain ⟨hfull, hall⟩ : (signed (trim text)).2 ≠ [] ∧ ∀ c ∈ (signed (trim text)).2, isDigit c = true := by
      simpa using hdigits
    obtain ⟨hrange, hnumber⟩ := Option.ite_none_right_eq_some.mp h
    have hn := Option.some.inj hnumber
    exact ⟨hfull, hall, hn.symm, hn ▸ hrange.1, hn ▸ hrange.2⟩

/-- A whole number that the database reads, `std::stoll` reads as well. -/
theorem stoll_of_readInteger {low high n : Int} {text : Bytes} (h : readInteger low high text = some n)
    (hlow : -2 ^ 63 ≤ low) (hhigh : high < 2 ^ 63) : stoll text = some n := by
  obtain ⟨hfull, hdigits, hn, hleast, hgreatest⟩ := readInteger_some h
  obtain ⟨spaces, htrim, hspaces⟩ := trim_append text
  have hne : trim text ≠ [] := by
    intro hnil
    rw [hnil] at hfull
    exact hfull rfl
  have htake : ((signed (trim text)).2 ++ spaces).takeWhile isDigit = (signed (trim text)).2 := by
    rw [List.takeWhile_append_of_pos hdigits]
    cases spaces with
    | nil => simp
    | cons c spaces =>
      have hc : ¬ isDigit c = true := by
        intro hdigit
        have hspace := hspaces c List.mem_cons_self
        rw [isSpace_digit hdigit] at hspace
        cases hspace
      rw [List.takeWhile_cons_of_neg hc, List.append_nil]
  rw [stoll_eq, htrim, signed_append hne]
  dsimp only
  rw [htake, if_neg hfull, ← hn, if_pos ⟨Int.le_trans hlow hleast, Int.lt_of_le_of_lt hgreatest hhigh⟩]

theorem trim_intText (n : Int) : trim (intText n) = intText n := by
  have hspace : ∀ c ∈ intText n, isSpace c = false := by
    intro c hc
    rcases List.mem_append.mp hc with hsign | hdigit
    · split at hsign
      · rw [List.mem_singleton.mp hsign]
        rfl
      · cases hsign
    · exact isSpace_digit (isDigit_natText hdigit)
  exact trim_of_ends (fun c hc => hspace c (List.mem_of_mem_head? hc)) fun c hc =>
    hspace c (List.mem_of_mem_getLast? hc)

theorem signed_intText (n : Int) : signed (intText n) = (decide (n < 0), natText n.natAbs) := by
  unfold intText
  split
  · rename_i hneg
    simp [signed, hneg]
  · rename_i hpos
    obtain ⟨c, rest, hnat⟩ := List.exists_cons_of_ne_nil (natText_ne_nil n.natAbs)
    have hc : isDigit c = true := isDigit_natText (hnat ▸ List.mem_cons_self)
    have hminus : c ≠ Ch.minus := by
      rintro rfl
      cases hc
    have hplus : c ≠ Ch.plus := by
      rintro rfl
      cases hc
    rw [List.nil_append, hnat, signed, if_neg hminus, if_neg hplus]
    simp [hpos]

theorem readInteger_intText {low high n : Int} (hlow : low ≤ n) (hhigh : n ≤ high) :
    readInteger low high (intText n) = some n := by
  have hdigits : (natText n.natAbs).all isDigit = true := List.all_eq_true.mpr fun _ hc => isDigit_natText hc
  have hnumber : (if decide (n < 0) = true then -((n.natAbs : Nat) : Int) else (n.natAbs : Nat)) = n := by
    simp only [decide_eq_true_eq]
    split <;> omega
  rw [readInteger, trim_intText, signed_intText]
  dsimp only
  rw [digitsValue_natText, hnumber, if_neg (by simp [natText_ne_nil, hdigits]), if_pos ⟨hlow, hhigh⟩]

/-- Every number of a value is one of 64 bits. -/
theorem number_bounds (value : Value) : -2 ^ 63 ≤ value.number ∧ value.number ≤ 2 ^ 63 - 1 := by
  cases value with
  | boolean b => cases b <;> decide
  | integer n | option n =>
    have hlow := n.le_toInt
    have hhigh := n.toInt_lt
    simp only [Value.number]
    omega
  | bigInteger n | duration n => exact ⟨n.le_toInt, Int.le_sub_one_of_lt n.toInt_lt⟩
  | date d =>
    have hbounded : d.serial ≤ (3012153 + 1) * 2 + 1 := d.bounded
    simp only [Value.number]
    omega
  | time t =>
    have hbounded : t.milliseconds < 86400000 := t.bounded
    simp only [Value.number]
    omega
  | dateTime t =>
    have := t.bounded
    simp only [Value.number]
    omega
  | _ => exact ⟨by simp [Value.number], by simp [Value.number]⟩

theorem stoll_intText {n : Int} (hlow : -2 ^ 63 ≤ n) (hhigh : n ≤ 2 ^ 63 - 1) : stoll (intText n) = some n :=
  stoll_of_readInteger (readInteger_intText hlow hhigh) (Int.le_refl _) (by decide)

/-! ### Where the two agree -/

section
variable {collation : Bytes → Bytes → Ordering} {fold : Bytes → Bytes} {field : FieldDef} {record : Record}

/-- The types whose columns a filter compares in both ways. -/
def Compared (field : FieldDef) : Prop :=
  field.type ∈ [.text, .code, .integer, .bigInteger, .decimal, .boolean, .option, .enum]

/-- An operand that a numeric field's type can hold. -/
def Numeric (field : FieldDef) (operand : Bytes) : Prop :=
  match field.type with
  | .integer => (readInteger (-2 ^ 31) (2 ^ 31 - 1) operand).isSome
  | .bigInteger => (readInteger (-2 ^ 63) (2 ^ 63 - 1) operand).isSome
  | .decimal => ∃ d, Decimal.fromInvariantString operand = .ok d ∧ readNumeric operand = some d.rational
  | _ => True

/-- An operand that the database can read: one that names a member or is spelled as a truth value. -/
def ReadInColumn (field : FieldDef) (operand : Bytes) : Prop :=
  match field.type with
  | .option | .enum => (readInteger (-2 ^ 31) (2 ^ 31 - 1) (memberOrdinal field operand)).isSome
  | .boolean => operand = [] ∨ (readBoolean operand).isSome
  | _ => True

/-- The database can read what an atom binds. -/
def Binds (fold : Bytes → Bytes) (field : FieldDef) (atom : Atom) : Prop :=
  match atom.compare with
  | .like | .notLike => (likePieces (characters (fold (boundText field (likePattern atom.value))))).isSome
  | _ => ∀ operand ∈ atom.operands, ReadInColumn field operand

theorem boundText_plain (hmember : byMember field = false) (hcode : field.type ≠ .code) (hne : operand ≠ []) :
    boundText field operand = operand := by
  rw [boundText, if_neg hne, hmember, if_neg Bool.false_ne_true, if_neg hcode]

theorem boundText_member (h : field.type = .option ∨ field.type = .enum) (operand : Bytes) :
    boundText field operand = memberOrdinal field operand := by
  have hmember : byMember field = true := by
    rcases h with h | h <;> simp [byMember, h]
  unfold boundText
  by_cases hne : operand = []
  · rw [if_pos hne, hne]
    unfold blankValueOf
    rcases h with h | h <;> rw [h]
  · rw [if_neg hne, if_pos hmember]

theorem boundText_code (h : field.type = .code) (operand : Bytes) : boundText field operand =
    normaliseCode operand := by
  unfold boundText byMember
  by_cases hne : operand = []
  · rw [if_pos hne, hne]
    unfold blankValueOf
    rw [h]
    rfl
  · simp [hne, h]

theorem boundText_text (h : field.type = .text) (operand : Bytes) : boundText field operand = operand := by
  unfold boundText byMember
  by_cases hne : operand = []
  · rw [if_pos hne, hne]
    unfold blankValueOf
    rw [h]
  · simp [hne, h]

theorem column_fold (value : Value) : (column collation field value fold).fold = fold := by
  unfold column
  split <;> rfl

/-- Of these atoms nothing covers that they are read apart: wildcards, and `=` and `<>` of texts. -/
def Direct (field : FieldDef) (atom : Atom) : Prop :=
  atom.compare = .like ∨ atom.compare = .notLike ∨
    (atom.compare = .equal ∨ atom.compare = .notEqual) ∧ (field.type = .text ∨ field.type = .code)

theorem Direct.reads (hdirect : Direct field atom)
    (h : (atomHolds (column collation field (record field.no) fold) field atom).isSome) : Binds fold field atom := by
  unfold Binds
  unfold atomHolds at h
  rcases hdirect with hcompare | hcompare | ⟨hcompare, hcharacters⟩
  · simpa [hcompare, column_fold, Filter.ilike] using h
  · simpa [hcompare, column_fold, Filter.ilike] using h
  · have hreadable : ∀ operand, ReadInColumn field operand := by
      intro operand
      unfold ReadInColumn
      rcases hcharacters with htype | htype <;> rw [htype] <;> trivial
    rcases hcompare with hcompare | hcompare <;> rw [hcompare] <;> exact fun operand _ => hreadable operand

end

/-! ### Filters that are read apart -/

/-- The texts in lower case, byte by byte. -/
def ignoringCase (a b : Bytes) : Ordering := Ord.compare (a.map lower) (b.map lower)

theorem ignoringCase_eq (a b : Bytes) : ignoringCase a b = .eq ↔ sameText a b = true := by
  rw [ignoringCase, Std.LawfulEqCmp.compare_eq_iff_eq, sameText, decide_eq_true_eq]

/-- A truth value, two members with one caption, and two with their names. -/
def named (first second : Bytes) : List EnumValueDef := [⟨0, ascii "A", first⟩, ⟨1, ascii "B", second⟩]

end Agiru.Filter
