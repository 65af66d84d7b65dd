import Agiru.Library.Bytes

/-! Texts of decimal digits, as the numbers they name; and `strtol`: a number in a base, after white space and a
sign, whatever follows it. -/
namespace Bytes

variable {digits : Bytes}

/-- A text of digits alone. -/
def Digits (text : Bytes) : Prop := ∀ c ∈ text, isDigit c = true

instance (text : Bytes) : Decidable (Digits text) := inferInstanceAs (Decidable (∀ c ∈ text, isDigit c = true))

variable {a b : Bytes} {c : UInt8}

theorem Digits.append (ha : Digits a) (hb : Digits b) : Digits (a ++ b) := by
  intro c hc
  rcases List.mem_append.mp hc with hc | hc
  · exact ha c hc
  · exact hb c hc

theorem Digits.of_append_left (h : Digits (a ++ b)) : Digits a := fun c hc => h c (List.mem_append_left b hc)

theorem Digits.of_append_right (h : Digits (a ++ b)) : Digits b := fun c hc => h c (List.mem_append_right a hc)

theorem Digits.tail (h : Digits (c :: a)) : Digits a := fun d hd => h d (List.mem_cons_of_mem c hd)

theorem Digits.sublist (h : Digits a) (hsub : b.Sublist a) : Digits b := fun c hc => h c (hsub.subset hc)

theorem digits_zeros (n : Nat) : Digits (List.replicate n Ch.zero) := by
  intro c hc
  rw [List.eq_of_mem_replicate hc]
  rfl

theorem isDigit_value (h : isDigit c = true) : c.toNat - 48 < 10 := by
  simp only [isDigit, Bool.and_eq_true, decide_eq_true_eq, UInt8.le_iff_toNat_le] at h
  have : (57 : UInt8).toNat = 57 := rfl
  omega

theorem digit_eq_zero (h : isDigit c = true) (hvalue : c.toNat - 48 = 0) : c = Ch.zero := by
  simp only [isDigit, Bool.and_eq_true, decide_eq_true_eq, UInt8.le_iff_toNat_le] at h
  have h48 : (48 : UInt8).toNat = 48 := rfl
  apply UInt8.toNat_inj.mp
  show c.toNat = 48
  omega

theorem foldl_digits (n : Nat) (text : Bytes) :
    text.foldl (fun n c => n * 10 + (c.toNat - 48)) n = n * 10 ^ text.length + digitsValue text := by
  unfold digitsValue
  induction text generalizing n with
  | nil => simp
  | cons c text ih =>
    rw [List.foldl_cons, List.foldl_cons, ih, ih (0 * 10 + _), List.length_cons]
    ring

theorem digitsValue_append (a b : Bytes) : digitsValue (a ++ b) = digitsValue a * 10 ^ b.length + digitsValue b := by
  rw [digitsValue, List.foldl_append]
  exact foldl_digits _ b

@[simp] theorem digitsValue_nil : digitsValue [] = 0 := rfl

theorem digitsValue_singleton (c : UInt8) : digitsValue [c] = c.toNat - 48 := by
  simp [digitsValue]

theorem digitsValue_cons (c : UInt8) (text : Bytes) :
    digitsValue (c :: text) = (c.toNat - 48) * 10 ^ text.length + digitsValue text := by
  rw [← List.singleton_append, digitsValue_append, digitsValue_singleton]

theorem digitsValue_concat (text : Bytes) (c : UInt8) :
    digitsValue (text ++ [c]) = digitsValue text * 10 + (c.toNat - 48) := by
  rw [digitsValue_append, digitsValue_singleton]
  rfl

theorem digitsValue_lt (h : Digits a) : digitsValue a < 10 ^ a.length := by
  induction a with
  | nil => exact Nat.one_pos
  | cons c a ih =>
    have hc := isDigit_value (h c List.mem_cons_self)
    have ha := ih h.tail
    rw [digitsValue_cons, List.length_cons, Nat.pow_succ]
    have : (c.toNat - 48) * 10 ^ a.length ≤ 9 * 10 ^ a.length := Nat.mul_le_mul_right _ (by omega)
    omega

@[simp] theorem digitsValue_zeros (n : Nat) : digitsValue (List.replicate n Ch.zero) = 0 := by
  induction n with
  | zero => rfl
  | succ n ih =>
    rw [List.replicate_succ, digitsValue_cons, ih]
    show (48 - 48) * _ + 0 = 0
    simp

theorem digitsValue_zeros_append (n : Nat) (text : Bytes) :
    digitsValue (List.replicate n Ch.zero ++ text) = digitsValue text := by
  simp [digitsValue_append]

theorem digitsValue_append_zeros (text : Bytes) (n : Nat) :
    digitsValue (text ++ List.replicate n Ch.zero) = digitsValue text * 10 ^ n := by
  simp [digitsValue_append]

/-- Leading zeros name nothing. -/
theorem digitsValue_dropZeros (text : Bytes) :
    digitsValue (text.dropWhile (· = Ch.zero)) = digitsValue text := by
  induction text with
  | nil => rfl
  | cons c text ih =>
    by_cases hc : c = Ch.zero
    · subst hc
      rw [List.dropWhile_cons_of_pos (by simp), ih, digitsValue_cons]
      show _ = (48 - 48) * _ + _
      simp
    · rw [List.dropWhile_cons_of_neg (by simpa using hc)]

/-- A number without leading zeros is as large as its digits are many. -/
theorem pow_le_digitsValue (h : Digits (c :: a)) (hc : c ≠ Ch.zero) : 10 ^ a.length ≤ digitsValue (c :: a) := by
  rw [digitsValue_cons]
  have hne : c.toNat - 48 ≠ 0 := fun hzero => hc (digit_eq_zero (h c List.mem_cons_self) hzero)
  exact Nat.le_trans (Nat.le_mul_of_pos_left _ (Nat.pos_of_ne_zero hne)) (Nat.le_add_right _ _)

theorem digitsValue_eq_zero (h : Digits a) : digitsValue a = 0 ↔ a.dropWhile (· = Ch.zero) = [] := by
  constructor
  · intro hzero
    cases hdrop : a.dropWhile (· = Ch.zero) with
    | nil => rfl
    | cons c rest =>
      have hdigits : Digits (c :: rest) := hdrop ▸ h.sublist (List.dropWhile_sublist _)
      have hc : c ≠ Ch.zero := by
        have hhead := List.head_dropWhile_not (p := fun c => decide (c = Ch.zero)) (l := a) (by rw [hdrop]; simp)
        simpa [hdrop] using hhead
      have hpos := pow_le_digitsValue hdigits hc
      rw [← hdrop, digitsValue_dropZeros, hzero] at hpos
      exact absurd hpos (Nat.not_le_of_gt (Nat.pow_pos (by decide)))
  · intro hnil
    rw [← digitsValue_dropZeros, hnil]
    rfl

/-- The value of a digit of the base. -/
def digitIn (base : Nat) (c : UInt8) : Option Nat :=
  let value :=
    if isDigit c then c.toNat - 48
    else if 97 ≤ c && c ≤ 122 then c.toNat - 87
    else if 65 ≤ c && c ≤ 90 then c.toNat - 55
    else 36
  if value < base then some value else none

/-- The number that the digits of a base name. -/
def valueIn (base : Nat) (digits : Bytes) : Nat :=
  digits.foldl (fun n c => n * base + (digitIn base c).getD 0) 0

/-- A base of 16 may be announced by `0x`, where a digit follows. -/
def unannounced (base : Nat) (text : Bytes) : Bytes :=
  match text with
  | zero :: x :: c :: rest =>
    if base = 16 ∧ zero = Ch.zero ∧ (x = 120 ∨ x = 88) ∧ (digitIn 16 c).isSome then c :: rest else text
  | _ => text

/-- The number at the start of a text, and nothing where it starts with none. -/
def strtol (base : Nat) (text : Bytes) : Option Int :=
  let text := text.dropWhile isSpace
  let (negative, text) :=
    match text with
    | c :: rest =>
      if c = Ch.minus then (true, rest) else if c = Ch.plus then (false, rest) else (false, text)
    | [] => (false, [])
  let digits := (unannounced base text).takeWhile fun c => (digitIn base c).isSome
  if digits = [] then none
  else some (if negative then -(valueIn base digits : Int) else valueIn base digits)

theorem isSpace_digit {c : UInt8} (h : isDigit c = true) : isSpace c = false := by
  simp only [isDigit, Bool.and_eq_true, decide_eq_true_eq, UInt8.le_iff_toNat_le] at h
  have h48 : (48 : UInt8).toNat = 48 := rfl
  have h13 : (13 : UInt8).toNat = 13 := rfl
  have hne : c ≠ 32 := by
    rintro rfl
    exact absurd h.1 (by decide)
  have hlarge : ¬ c.toNat ≤ 13 := by omega
  simp [isSpace, hne, UInt8.le_iff_toNat_le, h13, hlarge]

theorem digitIn_ten {c : UInt8} (h : isDigit c = true) : digitIn 10 c = some (c.toNat - 48) := by
  have hlt := isDigit_value h
  simp [digitIn, h, hlt]

theorem unannounced_ten (text : Bytes) : unannounced 10 text = text := by
  unfold unannounced
  split
  · simp
  · rfl

theorem valueIn_ten (h : Digits digits) : valueIn 10 digits = digitsValue digits := by
  apply List.foldl_ext
  intro n c hc
  rw [digitIn_ten (h c hc)]
  rfl

theorem takeWhile_digits (h : Digits digits) : digits.takeWhile (fun c => (digitIn 10 c).isSome) = digits := by
  apply List.takeWhile_eq_self_iff.mpr
  intro c hc
  rw [digitIn_ten (h c hc)]
  rfl

theorem strtol_digits (h : Digits digits) (hne : digits ≠ []) :
    strtol 10 digits = some (digitsValue digits : Int) := by
  obtain ⟨c, rest, rfl⟩ := List.exists_cons_of_ne_nil hne
  have hc := h c List.mem_cons_self
  have hminus : c ≠ Ch.minus := by
    rintro rfl
    cases hc
  have hplus : c ≠ Ch.plus := by
    rintro rfl
    cases hc
  have hstart : (c :: rest).dropWhile isSpace = c :: rest := by
    rw [List.dropWhile_cons_of_neg (by simp [isSpace_digit hc])]
  simp only [strtol, hstart, if_neg hminus, if_neg hplus, unannounced_ten, takeWhile_digits h, valueIn_ten h]
  rfl

theorem strtol_minus (h : Digits digits) (hne : digits ≠ []) :
    strtol 10 (Ch.minus :: digits) = some (-(digitsValue digits : Int)) := by
  have hstart : (Ch.minus :: digits).dropWhile isSpace = Ch.minus :: digits := rfl
  simp only [strtol, hstart, if_true, unannounced_ten, takeWhile_digits h, valueIn_ten h, if_neg hne]

end Bytes
