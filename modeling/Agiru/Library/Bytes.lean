import Mathlib.Data.List.DropRight
import Mathlib.Data.Nat.Digits.Lemmas

/-! Byte strings.

A string is a list of bytes: nothing is assumed of its encoding. The characters
a program names stand in `Ch`; a literal is written `ascii "..."`. Natural
numbers are printed in decimal by `natText`, which is injective and prints
nothing but digits. -/
abbrev Bytes := List UInt8

namespace Bytes

variable {text : Bytes}
variable {c : UInt8}

instance : LawfulBEq Bytes := List.instLawfulBEq

/-- The bytes of a literal, one for each of its (ASCII) characters. -/
def ascii (s : String) : Bytes := s.toList.map Char.toUInt8

/-- `std::isspace` in the C locale. -/
def isSpace (c : UInt8) : Bool := (9 ≤ c && c ≤ 13) || c = 32

def isDigit (c : UInt8) : Bool := 48 ≤ c && c ≤ 57

/-- `std::tolower` in the C locale. -/
def lower (c : UInt8) : UInt8 := if 65 ≤ c && c ≤ 90 then c + 32 else c

/-- A text without the white space at its ends. -/
def trim (text : Bytes) : Bytes := (text.dropWhile isSpace).rdropWhile isSpace

/-- The same text up to ASCII letter case. -/
def sameText (a b : Bytes) : Bool := a.map lower = b.map lower

namespace Ch
abbrev tab : UInt8 := 9
abbrev carriageReturn : UInt8 := 13
abbrev unitSeparator : UInt8 := 31
abbrev blank : UInt8 := 32
abbrev doubleQuote : UInt8 := 34
abbrev ampersand : UInt8 := 38
abbrev quote : UInt8 := 39
abbrev openParen : UInt8 := 40
abbrev closeParen : UInt8 := 41
abbrev star : UInt8 := 42
abbrev plus : UInt8 := 43
abbrev comma : UInt8 := 44
abbrev minus : UInt8 := 45
abbrev dot : UInt8 := 46
abbrev zero : UInt8 := 48
abbrev nine : UInt8 := 57
abbrev less : UInt8 := 60
abbrev equals : UInt8 := 61
abbrev greater : UInt8 := 62
abbrev question : UInt8 := 63
abbrev commercialAt : UInt8 := 64
abbrev bar : UInt8 := 124
end Ch

/-! ### Letter case -/

theorem sameText_length {a b : Bytes} (h : sameText a b = true) : a.length = b.length := by
  have := congrArg List.length (of_decide_eq_true h)
  simpa using this

/-- Letter case moves no character that is not a letter. -/
theorem lower_eq_iff {d : UInt8} (hd : lower d = d) (hsmall : d < 97) : lower c = d ↔ c = d := by
  constructor
  · intro h
    unfold lower at h hd
    grind
  · rintro rfl
    exact hd

theorem lower_lower (c : UInt8) : lower (lower c) = lower c := by
  unfold lower
  grind

/-! ### Trimming -/

theorem infix_trim (text : Bytes) : trim text <:+: text :=
  (List.rdropWhile_prefix isSpace _).isInfix.trans (List.dropWhile_suffix isSpace).isInfix

theorem trim_length_le (text : Bytes) : (trim text).length ≤ text.length :=
  (infix_trim text).length_le

theorem head_trim (h : (trim text).head? = some c) : isSpace c = false := by
  obtain ⟨rest, hrest⟩ := List.rdropWhile_prefix isSpace (text.dropWhile isSpace)
  have hhead : (text.dropWhile isSpace).head? = some c := by
    rw [← hrest, List.head?_append]
    simp [show (text.dropWhile isSpace).rdropWhile isSpace = trim text from rfl, h]
  have := List.head?_dropWhile_not isSpace text
  rw [hhead] at this
  exact this

theorem last_trim (h : (trim text).getLast? = some c) : isSpace c = false := by
  have := List.head?_dropWhile_not isSpace (text.dropWhile isSpace).reverse
  rw [trim, List.rdropWhile, List.getLast?_reverse] at h
  rw [h] at this
  exact this

/-- A text with no white space at its ends is its own trimming. -/
theorem trim_of_ends (hfirst : ∀ c, text.head? = some c → isSpace c = false)
    (hlast : ∀ c, text.getLast? = some c → isSpace c = false) : trim text = text := by
  have hfront : text.dropWhile isSpace = text := by
    cases text with
    | nil => rfl
    | cons c rest => rw [List.dropWhile_cons_of_neg (by simp [hfirst c rfl])]
  rw [trim, hfront, List.rdropWhile_eq_self_iff]
  intro hne
  simp [hlast _ (List.getLast?_eq_some_getLast hne)]

@[simp] theorem trim_trim (text : Bytes) : trim (trim text) = trim text :=
  trim_of_ends (fun _ => head_trim) fun _ => last_trim

theorem trim_ne_nil (hc : c ∈ text) (hs : isSpace c = false) : trim text ≠ [] := by
  intro hnil
  rw [trim, List.rdropWhile_eq_nil_iff] at hnil
  have hsplit := List.takeWhile_append_dropWhile (p := isSpace) (l := text)
  rw [← hsplit, List.mem_append] at hc
  rcases hc with hfront | hback
  · have := List.mem_takeWhile_imp hfront
    simp [hs] at this
  · have := hnil c hback
    simp [hs] at this

theorem trim_eq_nil_iff : trim text = [] ↔ ∀ c ∈ text, isSpace c = true := by
  constructor
  · intro h c hc
    by_contra hspace
    exact trim_ne_nil hc (Bool.eq_false_iff.mpr hspace) h
  · intro h
    rw [trim, List.rdropWhile_eq_nil_iff]
    exact fun c hc => h c ((List.dropWhile_suffix isSpace).subset hc)

/-- A text is its trimming between white space. -/
theorem eq_trim (text : Bytes) :
    ∃ before after, text = before ++ (trim text ++ after) ∧ trim before = [] ∧ trim after = [] := by
  refine ⟨text.takeWhile isSpace, (text.dropWhile isSpace).rtakeWhile isSpace, ?_, ?_, ?_⟩
  · rw [trim, List.rdropWhile_append_rtakeWhile, List.takeWhile_append_dropWhile]
  · exact trim_eq_nil_iff.mpr fun c hc => List.mem_takeWhile_imp hc
  · exact trim_eq_nil_iff.mpr fun c hc => List.mem_rtakeWhile_imp hc

theorem trim_surrounded {before after : Bytes} (hbefore : trim before = []) (hafter : trim after = []) :
    trim (before ++ (text ++ after)) = trim text := by
  rw [trim_eq_nil_iff] at hbefore hafter
  have hfront : (before ++ (text ++ after)).dropWhile isSpace = (text ++ after).dropWhile isSpace :=
    List.dropWhile_append_of_pos hbefore
  rw [trim, hfront, List.dropWhile_append]
  split
  · next hnil =>
    have hall : ∀ c ∈ text, isSpace c = true := List.dropWhile_eq_nil_iff.mp (List.isEmpty_iff.mp hnil)
    rw [trim_eq_nil_iff.mpr hall]
    exact List.rdropWhile_eq_nil_iff.mpr fun c hc => hafter c ((List.dropWhile_suffix isSpace).subset hc)
  · rw [List.rdropWhile, List.reverse_append, List.dropWhile_append_of_pos]
    · rfl
    · exact fun c hc => hafter c (List.mem_reverse.mp hc)

/-! ### Decimal numerals -/

/-- A decimal digit's character. -/
def digitChar (d : Nat) : UInt8 := Ch.zero + UInt8.ofNat d

/-- A natural number in decimal, without leading zeros. -/
def natText (n : Nat) : Bytes :=
  if n = 0 then [Ch.zero] else (Nat.digits 10 n).reverse.map digitChar

theorem digitChar_toNat {d : Nat} (h : d < 10) : (digitChar d).toNat = 48 + d := by
  simp only [digitChar, UInt8.toNat_add, UInt8.toNat_ofNat']
  have : (Ch.zero).toNat = 48 := rfl
  omega

/-- Every character of a numeral is a digit. -/
theorem natText_digit {n : Nat} (h : c ∈ natText n) : Ch.zero ≤ c ∧ c ≤ Ch.nine := by
  have hdigit : ∃ d, d < 10 ∧ c = digitChar d := by
    unfold natText at h
    split at h
    · exact ⟨0, by omega, by simpa [digitChar] using h⟩
    · simp only [List.mem_map, List.mem_reverse] at h
      obtain ⟨d, hd, rfl⟩ := h
      exact ⟨d, Nat.digits_lt_base (by omega) hd, rfl⟩
  obtain ⟨d, hd, rfl⟩ := hdigit
  have hvalue := digitChar_toNat hd
  constructor <;> rw [UInt8.le_iff_toNat_le, hvalue]
  · show 48 ≤ 48 + d
    omega
  · show 48 + d ≤ 57
    omega

theorem natText_ne_nil (n : Nat) : natText n ≠ [] := by
  unfold natText
  split
  · simp
  · rename_i h
    simp [Nat.digits_ne_nil_iff_ne_zero.mpr h]

/-- Printing and reading the digits back is the identity. -/
theorem ofDigits_natText (n : Nat) :
    Nat.ofDigits 10 ((natText n).reverse.map fun c => c.toNat - 48) = n := by
  unfold natText
  split
  · rename_i h
    subst h
    rfl
  · rw [← List.map_reverse, List.reverse_reverse, List.map_map]
    have hmap : (Nat.digits 10 n).map ((fun c => c.toNat - 48) ∘ digitChar) = Nat.digits 10 n := by
      conv_rhs => rw [← List.map_id (Nat.digits 10 n)]
      refine List.map_congr_left fun d hd => ?_
      simp [digitChar_toNat (Nat.digits_lt_base (by omega) hd)]
    rw [hmap, Nat.ofDigits_digits]

/-- The number that digits name. -/
def digitsValue (digits : Bytes) : Nat := digits.foldl (fun n c => n * 10 + (c.toNat - 48)) 0

theorem digitsValue_natText (n : Nat) : digitsValue (natText n) = n := by
  have h := ofDigits_natText n
  rw [Nat.ofDigits_eq_foldr, List.map_reverse, List.foldr_reverse, List.foldl_map] at h
  refine Eq.trans ?_ h
  refine List.foldl_ext _ _ _ fun m c _ => ?_
  simp [Nat.mul_comm, Nat.add_comm]

theorem isDigit_natText {n : Nat} (h : c ∈ natText n) : isDigit c = true := by
  simpa [isDigit] using natText_digit h

theorem natText_injective {m n : Nat} (h : natText m = natText n) : m = n := by
  rw [← ofDigits_natText m, ← ofDigits_natText n, h]

end Bytes
