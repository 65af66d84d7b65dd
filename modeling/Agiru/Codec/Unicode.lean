import Agiru.Codec.Encoding

/-! The Unicode encodings are inverse and total.

`next_point` reads back every code point that is written; `next_cases` says what is read
of any bytes: the form of a scalar, or the replacement for bytes that are none. -/
namespace Agiru.Codec
open Utf

variable {n : Nat}

/-! ### Bits -/

theorem continuation_eq (h : n < 64) : 0x80 ||| n = 0x80 + n := by
  have hall : ∀ n < 64, 0x80 ||| n = 0x80 + n := by decide
  exact hall n h

theorem lead_eq : (n < 32 → 0xC0 ||| n = 0xC0 + n) ∧ (n < 16 → 0xE0 ||| n = 0xE0 + n) ∧
      (n < 8 → 0xF0 ||| n = 0xF0 + n) := by
  have htwo : ∀ n < 32, 0xC0 ||| n = 0xC0 + n := by decide
  have hthree : ∀ n < 16, 0xE0 ||| n = 0xE0 + n := by decide
  have hfour : ∀ n < 8, 0xF0 ||| n = 0xF0 + n := by decide
  exact ⟨htwo n, hthree n, hfour n⟩

theorem and_63 (n : Nat) : n &&& 0x3F = n % 64 := Nat.and_two_pow_sub_one_eq_mod n 6

theorem shift_or (code byte : Nat) : code <<< 6 ||| byte &&& 0x3F = code * 64 + byte % 64 := by
  rw [and_63, ← Nat.shiftLeft_add_eq_or_of_lt (Nat.mod_lt _ (by decide)), Nat.shiftLeft_eq]

theorem surrogate_eq (h : n < 0x400) : 0xD800 ||| n = 0xD800 + n ∧ 0xDC00 ||| n = 0xDC00 + n := by
  have hall : ∀ n < 0x400, 0xD800 ||| n = 0xD800 + n ∧ 0xDC00 ||| n = 0xDC00 + n := by decide +kernel
  exact hall n h

theorem appendUtf8_eq (h : n < 0x110000) : appendUtf8 n = point n := by
  unfold appendUtf8 point
  by_cases h1 : n < 0x80
  · rw [if_pos h1, if_pos (by omega)]
    have hlow : ((n : Int) % 2 ^ 8).toNat = n := by omega
    rw [UInt8.ofInt, hlow]
  · rw [if_neg h1, if_neg (by omega)]
    dsimp only
    simp only [Int.toNat_natCast, and_63, Nat.shiftRight_eq_div_pow, Nat.reducePow]
    rw [continuation_eq (Nat.mod_lt n (by decide)), continuation_eq (Nat.mod_lt (n / 64) (by decide)),
      continuation_eq (Nat.mod_lt (n / 4096) (by decide))]
    by_cases h2 : n < 0x800
    · rw [if_pos h2, if_pos h2, lead_eq.1 (by omega)]
    · rw [if_neg h2, if_neg h2]
      by_cases h3 : n < 0x10000
      · rw [if_pos h3, if_pos h3, lead_eq.2.1 (by omega)]
      · rw [if_neg h3, if_neg h3, lead_eq.2.2 (by omega)]

/-! ### Reading what was written -/

/-- A code point that may be read. -/
def Readable (allow : Bool) (n : Nat) : Prop := n.isValidChar ∨ allow = true ∧ n < 0x110000

theorem nextBytes_succ {lead left code m : Nat} {allow second : Bool} (hm : m < 64)
    (h : second = true → refusesSecond lead (0x80 + m) allow = false) (input : Bytes) :
    nextBytes lead allow (left + 1) second code (UInt8.ofNat (0x80 + m) :: input) =
      nextBytes lead allow left false (code * 64 + m) input := by
  have hrefuse : (second && refusesSecond lead (0x80 + m) allow) = false := by
    cases second with
    | false => rfl
    | true => rw [h rfl, Bool.and_false]
  rw [nextBytes, toNat_ofNat (by omega), show (0x80 ||| 0x3F : Nat) = 0xBF from rfl, if_neg (by omega), hrefuse,
    if_neg Bool.false_ne_true, shift_or, show (0x80 + m) % 64 = m by omega]

theorem lead_bits (n : Nat) : n &&& (0x7F >>> 2) = n % 32 ∧ n &&& (0x7F >>> 3) = n % 16 ∧
    n &&& (0x7F >>> 4) = n % 8 :=
  ⟨Nat.and_two_pow_sub_one_eq_mod n 5, Nat.and_two_pow_sub_one_eq_mod n 4, Nat.and_two_pow_sub_one_eq_mod n 3⟩

theorem next_point (allow : Bool) (h : Readable allow n) (input : Bytes) :
    ∃ first tail, point n = first :: tail ∧ nextUtf8 allow first (tail ++ input) = (n, input) := by
  have hn : n < 0x110000 := by
    rcases h with h | ⟨-, h⟩
    · unfold Nat.isValidChar at h
      omega
    · exact h
  unfold point
  by_cases h1 : n < 0x80
  · rw [if_pos h1]
    refine ⟨_, _, rfl, ?_⟩
    unfold nextUtf8
    rw [toNat_ofNat (by omega)]
    dsimp only
    rw [if_pos h1]
    rfl
  · rw [if_neg h1]
    by_cases h2 : n < 0x800
    · rw [if_pos h2]
      refine ⟨_, _, rfl, ?_⟩
      unfold nextUtf8
      rw [toNat_ofNat (by omega)]
      dsimp only
      rw [if_neg (by omega), if_neg (by omega), if_pos (by omega), (lead_bits _).1, List.cons_append,
        nextBytes_succ (by omega) (by intro _; simp [refusesSecond]; omega), nextBytes]
      exact Prod.ext (by dsimp only; omega) rfl
    · rw [if_neg h2]
      by_cases h3 : n < 0x10000
      · rw [if_pos h3]
        refine ⟨_, _, rfl, ?_⟩
        have hsecond : refusesSecond (0xE0 + n / 4096) (0x80 + n / 64 % 64) allow = false := by
          rcases h with h | ⟨rfl, -⟩
          · unfold Nat.isValidChar at h
            simp [refusesSecond]
            omega
          · simp [refusesSecond]
            omega
        unfold nextUtf8
        rw [toNat_ofNat (by omega)]
        dsimp only
        rw [if_neg (by omega), if_neg (by omega), if_neg (by omega), if_pos (by omega), (lead_bits _).2.1,
          List.cons_append, List.cons_append, nextBytes_succ (by omega) (fun _ => hsecond),
          nextBytes_succ (by omega) (by simp), nextBytes]
        exact Prod.ext (by dsimp only; omega) rfl
      · rw [if_neg h3]
        refine ⟨_, _, rfl, ?_⟩
        have hsecond : refusesSecond (0xF0 + n / 262144) (0x80 + n / 4096 % 64) allow = false := by
          simp [refusesSecond]
          omega
        unfold nextUtf8
        rw [toNat_ofNat (by omega)]
        dsimp only
        rw [if_neg (by omega), if_neg (by omega), if_neg (by omega), if_neg (by omega), (lead_bits _).2.2,
          List.cons_append, List.cons_append, List.cons_append,
          nextBytes_succ (by omega) (fun _ => hsecond), nextBytes_succ (by omega) (by simp),
          nextBytes_succ (by omega) (by simp), nextBytes]
        exact Prod.ext (by dsimp only; omega) rfl

/-! ### Reading any bytes -/

/-- The bits that a byte adds to a code point. -/
def addBits (code : Nat) (b : UInt8) : Nat := code * 64 + b.toNat % 64

theorem nextBytes_cases (lead : Nat) (allow : Bool) (left : Nat) (second : Bool) (code : Nat)
    (input : Bytes) :
    ∃ tail, input = tail ++ (nextBytes lead allow left second code input).2 ∧
      ((tail.length = left ∧ (∀ b ∈ tail, continues b) ∧
        (nextBytes lead allow left second code input).1 = tail.foldl addBits code ∧
        (second = true → ∀ b ∈ tail.head?, refusesSecond lead b.toNat allow = false)) ∨
      ((nextBytes lead allow left second code input).1 = unicodeReplacement ∧ tail.length < left)) := by
  induction left generalizing second code input with
  | zero => exact ⟨[], rfl, .inl ⟨rfl, by simp, rfl, by simp⟩⟩
  | succ left ih =>
    cases input with
    | nil => exact ⟨[], rfl, .inr ⟨rfl, Nat.succ_pos _⟩⟩
    | cons b input =>
      rw [nextBytes]
      by_cases hbyte : b.toNat < 0x80 ∨ 0x80 ||| 0x3F < b.toNat
      · rw [if_pos hbyte]
        exact ⟨[], rfl, .inr ⟨rfl, Nat.succ_pos _⟩⟩
      · rw [if_neg hbyte]
        by_cases hrefuse : (second && refusesSecond lead b.toNat allow) = true
        · rw [if_pos hrefuse]
          exact ⟨[], rfl, .inr ⟨rfl, Nat.succ_pos _⟩⟩
        · rw [if_neg hrefuse, shift_or]
          obtain ⟨tail, hsplit, hread⟩ := ih false (code * 64 + b.toNat % 64) input
          refine ⟨b :: tail, congrArg (b :: ·) hsplit, ?_⟩
          rcases hread with ⟨hlength, hcontinues, hcode, -⟩ | ⟨hcode, hlength⟩
          · refine .inl ⟨by rw [List.length_cons, hlength], List.forall_mem_cons.mpr ⟨?_, hcontinues⟩,
              hcode, ?_⟩
            · rw [show (0x80 ||| 0x3F : Nat) = 0xBF from rfl] at hbyte
              rw [continues]
              omega
            · rintro rfl
              simpa using hrefuse
          · exact .inr ⟨hcode, by rw [List.length_cons]; omega⟩

theorem ofNat_eq {b : UInt8} (h : n = b.toNat) : UInt8.ofNat n = b := by
  rw [h, UInt8.ofNat_toNat]

/-- What is read of any bytes: the form of a scalar, or bytes that are none. -/
theorem next_cases (first : UInt8) (input : Bytes) :
    ∃ consumed, first :: input = consumed ++ (nextUtf8 false first input).2 ∧
      (((nextUtf8 false first input).1.isValidChar ∧ consumed = point (nextUtf8 false first input).1) ∨
        ((nextUtf8 false first input).1 = unicodeReplacement ∧ consumed ≠ point unicodeReplacement)) := by
  have hreplacement : point unicodeReplacement = [0xEF, 0xBF, 0xBD] := by decide
  rw [hreplacement]
  unfold nextUtf8
  dsimp only
  by_cases hascii : first.toNat < 0x80
  · rw [if_pos hascii]
    refine ⟨[first], rfl, .inl ⟨.inl (by dsimp only; omega), ?_⟩⟩
    rw [point, if_pos hascii, UInt8.ofNat_toNat]
  · rw [if_neg hascii]
    by_cases hinvalid : first.toNat < 0xC2 ∨ 0xF4 < first.toNat
    · rw [if_pos hinvalid]
      exact ⟨[first], rfl, .inr ⟨rfl, by simp⟩⟩
    · rw [if_neg hinvalid]
      generalize hlength : (if first.toNat < 0xE0 then 2 else if first.toNat < 0xF0 then 3 else 4) = length
      obtain ⟨tail, hsplit, hread⟩ := nextBytes_cases first.toNat false (length - 1) true
        (first.toNat &&& (0x7F >>> length)) input
      refine ⟨first :: tail, congrArg (first :: ·) hsplit, ?_⟩
      rcases hread with ⟨hcount, hcontinues, hcode, hsecond⟩ | ⟨hcode, hcount⟩
      · rw [hcode]
        refine .inl ?_
        split at hlength
        · subst hlength
          obtain ⟨b, rfl⟩ := List.length_eq_one_iff.mp hcount
          have hb := List.forall_mem_singleton.mp hcontinues
          rw [continues] at hb
          simp only [List.foldl_cons, List.foldl_nil, addBits, (lead_bits _).1]
          refine ⟨by unfold Nat.isValidChar; omega, ?_⟩
          rw [point, if_neg (by omega), if_pos (by omega), ofNat_eq (b := first) (by omega),
            ofNat_eq (b := b) (by omega)]
        · split at hlength
          · subst hlength
            obtain ⟨b, c, rfl⟩ := List.length_eq_two.mp hcount
            simp only [List.forall_mem_cons, continues] at hcontinues
            have hb := hsecond rfl b rfl
            simp only [refusesSecond, Bool.or_eq_false_iff, Bool.and_eq_false_imp, decide_eq_true_eq,
              decide_eq_false_iff_not, Bool.not_false, Bool.and_true] at hb
            simp only [List.foldl_cons, List.foldl_nil, addBits, (lead_bits _).2.1]
            refine ⟨by unfold Nat.isValidChar; omega, ?_⟩
            rw [point, if_neg (by omega), if_neg (by omega), if_pos (by omega), ofNat_eq (b := first) (by omega),
              ofNat_eq (b := b) (by omega), ofNat_eq (b := c) (by omega)]
          · subst hlength
            obtain ⟨b, c, d, rfl⟩ := List.length_eq_three.mp hcount
            simp only [List.forall_mem_cons, continues] at hcontinues
            have hb := hsecond rfl b rfl
            simp only [refusesSecond, Bool.or_eq_false_iff, Bool.and_eq_false_imp, decide_eq_true_eq,
              decide_eq_false_iff_not, Bool.not_false, Bool.and_true] at hb
            simp only [List.foldl_cons, List.foldl_nil, addBits, (lead_bits _).2.2]
            refine ⟨by unfold Nat.isValidChar; omega, ?_⟩
            rw [point, if_neg (by omega), if_neg (by omega), if_neg (by omega), ofNat_eq (b := first) (by omega),
              ofNat_eq (b := b) (by omega), ofNat_eq (b := c) (by omega), ofNat_eq (b := d) (by omega)]
      · refine .inr ⟨hcode, fun heq => ?_⟩
        obtain ⟨rfl, rfl⟩ := List.cons.inj heq
        subst hlength
        revert hcount
        decide

/-! ### The readers -/

theorem char_valid (c : Char) : c.toNat.isValidChar := c.valid

theorem replacement_valid : unicodeReplacement.isValidChar := .inr ⟨by decide, by decide⟩

theorem codes_point (h : n.isValidChar) (input : Bytes) :
    utf8Reader.codes (point n ++ input) = n :: utf8Reader.codes input := by
  obtain ⟨first, tail, hpoint, hnext⟩ := next_point false (.inl h) input
  have hread : utf8Reader.next first (tail ++ input) = (n, input) := hnext
  rw [hpoint, List.cons_append, Reader.codes_cons, hread]

theorem utf8Reader_codes (text : List Char) : utf8Reader.codes (utf8 text) = text.map Char.toNat := by
  induction text with
  | nil => exact Reader.codes_nil _
  | cons c text ih => rw [utf8_cons, codes_point (char_valid c), ih, List.map_cons]

theorem surrogate_iff (n : Nat) : (isHighSurrogate n = true ↔ 0xD800 ≤ n ∧ n < 0xDC00) ∧
    (isLowSurrogate n = true ↔ 0xDC00 ≤ n ∧ n < 0xE000) := by
  have hlast : (lowSurrogate ||| surrogateMask : Nat) = 0xDFFF := rfl
  unfold isHighSurrogate isLowSurrogate
  rw [hlast, Bool.and_eq_true, Bool.and_eq_true]
  have hlow : lowSurrogate = 0xDC00 := rfl
  simp only [decide_eq_true_eq]
  exact ⟨trivial, by omega⟩

theorem not_surrogate (h : n.isValidChar) : isHighSurrogate n = false ∧ isLowSurrogate n = false := by
  obtain ⟨hhigh, hlow⟩ := surrogate_iff n
  unfold Nat.isValidChar at h
  constructor
  · rw [← Bool.not_eq_true, hhigh]
    omega
  · rw [← Bool.not_eq_true, hlow]
    omega

theorem textCodes_point (h : n.isValidChar) (input : Bytes) :
    textReader.codes (point n ++ input) = n :: textReader.codes input := by
  obtain ⟨first, tail, hpoint, hnext⟩ := next_point true (.inl h) input
  obtain ⟨hhigh, hlow⟩ := not_surrogate h
  have hread : textReader.next first (tail ++ input) = (n, input) := by
    show nextTextScalar first (tail ++ input) = _
    unfold nextTextScalar
    rw [hnext]
    dsimp only
    rw [hhigh, hlow]
    rfl
  rw [hpoint, List.cons_append, Reader.codes_cons, hread]

theorem textReader_codes (text : List Char) : textReader.codes (utf8 text) = text.map Char.toNat := by
  induction text with
  | nil => exact Reader.codes_nil _
  | cons c text ih => rw [utf8_cons, textCodes_point (char_valid c), ih, List.map_cons]

/-- A text of single units joins its surrogates. -/
theorem textCodes_pair {high low : Nat} (hhigh : isHighSurrogate high = true)
    (hlow : isLowSurrogate low = true) (input : Bytes) :
    textReader.codes (point high ++ (point low ++ input)) =
      joinSurrogates high low :: textReader.codes input := by
  have hreadable : Readable true high ∧ Readable true low := by
    have := (surrogate_iff high).1.mp hhigh
    have := (surrogate_iff low).2.mp hlow
    exact ⟨.inr ⟨rfl, by omega⟩, .inr ⟨rfl, by omega⟩⟩
  obtain ⟨first, tail, hpoint, hnext⟩ := next_point true hreadable.1 (point low ++ input)
  obtain ⟨second, after, hpoint', hnext'⟩ := next_point true hreadable.2 input
  have hread : textReader.next first (tail ++ (point low ++ input)) = (joinSurrogates high low, input) := by
    show nextTextScalar first (tail ++ (point low ++ input)) = _
    unfold nextTextScalar
    rw [hnext, hpoint']
    dsimp only [List.cons_append]
    rw [hhigh]
    dsimp only
    rw [hnext']
    dsimp only
    rw [if_pos hlow]
  rw [hpoint, List.cons_append, Reader.codes_cons, hread]

theorem codes_valid (bytes : Bytes) : ∀ n ∈ utf8Reader.codes bytes, n.isValidChar := by
  induction hlength : bytes.length using Nat.strongRecOn generalizing bytes with
  | ind length ih =>
    cases bytes with
    | nil => simp
    | cons first input =>
      rw [Reader.codes_cons, List.forall_mem_cons]
      have hsuffix := (utf8Reader.suffix first input).length_le
      refine ⟨?_, ih _ (by rw [← hlength, List.length_cons]; omega) _ rfl⟩
      obtain ⟨consumed, -, ⟨hvalid, -⟩ | ⟨hcode, -⟩⟩ := next_cases first input
      · exact hvalid
      · show (nextUtf8 false first input).1.isValidChar
        rw [hcode]
        exact replacement_valid

/-- Codes that are scalars are a text. -/
theorem text_of_codes {codes : List Nat} (h : ∀ n ∈ codes, n.isValidChar) :
    ∃ text : List Char, codes = text.map Char.toNat := by
  refine ⟨codes.map Char.ofNat, ?_⟩
  rw [List.map_map]
  refine (List.map_id codes).symm.trans (List.map_congr_left fun n hn => ?_)
  show n = (Char.ofNat n).toNat
  rw [Char.ofNat, dif_pos (h n hn)]
  rfl

theorem flatMap_appendUtf8 (text : List Char) :
    (text.map Char.toNat).flatMap (fun code : Nat => appendUtf8 code) = utf8 text := by
  induction text with
  | nil => rfl
  | cons c text ih =>
    rw [List.map_cons, List.flatMap_cons, ih, utf8_cons, appendUtf8_eq (scalar_lt c)]

/-- The replacement, or a scalar that is read, before a text is a text. -/
theorem append_valid {rest : Bytes} (hn : n.isValidChar)
    (h : ∃ text : List Char, rest = utf8 text) : ∃ text : List Char, appendUtf8 n ++ rest = utf8 text := by
  obtain ⟨text, rfl⟩ := h
  obtain ⟨first, hfirst⟩ := @text_of_codes [n] (by simpa using hn)
  refine ⟨first ++ text, ?_⟩
  rw [utf8_append, ← flatMap_appendUtf8 first, ← hfirst, List.flatMap_singleton]

/-! ### UTF-16 and UTF-32 -/

theorem byte_eq : UInt8.ofNat (n &&& 0xFF) = UInt8.ofNat n := by
  rw [show n &&& 0xFF = n % 256 from Nat.and_two_pow_sub_one_eq_mod n 8]
  exact UInt8.toNat_inj.mp (by simp)

theorem unitsOfCode_eq (h : n < 0x110000) : unitsOfCode n = pointUnits n := by
  have hbase : surrogateBase = 0x10000 := rfl
  unfold unitsOfCode pointUnits
  by_cases hbasic : n < 0x10000
  · rw [if_neg (by omega), if_pos hbasic]
  · rw [if_pos (by omega), if_neg hbasic]
    dsimp only
    rw [show n - surrogateBase &&& surrogateMask = (n - 0x10000) % 0x400 from
      Nat.and_two_pow_sub_one_eq_mod _ 10, Nat.shiftRight_eq_div_pow,
      (surrogate_eq (by omega)).1, (surrogate_eq (Nat.mod_lt _ (by decide))).2]

/-- The two bytes of a unit, the low one first. -/
def unitBytes (unit : Nat) : Bytes := [UInt8.ofNat unit, UInt8.ofNat (unit / 256)]

theorem appendUtf16_eq (h : n < 0x110000) : appendUtf16 n = (pointUnits n).flatMap unitBytes := by
  rw [appendUtf16, unitsOfCode_eq h]
  refine List.flatMap_congr fun unit _ => ?_
  rw [appendUtf16Unit, byte_eq, byte_eq, Nat.shiftRight_eq_div_pow]
  rfl

theorem utf16Unit_lt (a b : UInt8) : utf16Unit a b < 0x10000 :=
  Nat.or_lt_two_pow (n := 16) (Nat.lt_of_lt_of_le a.toNat_lt (by decide))
    (by rw [Nat.shiftLeft_eq]; have := b.toNat_lt; omega)

theorem utf16Unit_bytes {unit : Nat} (h : unit < 0x10000) :
    utf16Unit (UInt8.ofNat unit) (UInt8.ofNat (unit / 256)) = unit := by
  have hlow : (UInt8.ofNat unit).toNat = unit % 256 := UInt8.toNat_ofNat'
  rw [utf16Unit, hlow, toNat_ofNat (by omega), Nat.or_comm,
    ← Nat.shiftLeft_add_eq_or_of_lt (by omega : unit % 256 < 2 ^ 8), Nat.shiftLeft_eq]
  omega

theorem join_valid {high low : Nat} (hhigh : isHighSurrogate high = true) (hlow : isLowSurrogate low = true) :
    (joinSurrogates high low).isValidChar := by
  have h := (surrogate_iff high).1.mp hhigh
  have l := (surrogate_iff low).2.mp hlow
  unfold joinSurrogates Nat.isValidChar surrogateBase highSurrogate lowSurrogate
  rw [Nat.shiftLeft_eq]
  omega

theorem lowAt_some {bytes : Bytes} {low : Nat} (h : lowAt bytes = some low) : isLowSurrogate low = true := by
  unfold lowAt at h
  split at h
  · split at h
    next hlow =>
      obtain rfl := Option.some.inj h
      exact hlow
    · cases h
  · cases h

/-- The units of a character outside the basic plane are surrogates, which join to it. -/
theorem join_units (hbasic : ¬ n < 0x10000) (h : n < 0x110000) :
    isHighSurrogate (0xD800 + (n - 0x10000) / 0x400) = true ∧
      isLowSurrogate (0xDC00 + (n - 0x10000) % 0x400) = true ∧
      joinSurrogates (0xD800 + (n - 0x10000) / 0x400) (0xDC00 + (n - 0x10000) % 0x400) = n := by
  refine ⟨(surrogate_iff _).1.mpr (by omega), (surrogate_iff _).2.mpr (by omega), ?_⟩
  unfold joinSurrogates surrogateBase highSurrogate lowSurrogate
  rw [Nat.shiftLeft_eq]
  omega

theorem decodeUtf16_point (h : n.isValidChar) (bytes : Bytes) :
    decodeUtf16 ((pointUnits n).flatMap unitBytes ++ bytes) = point n ++ decodeUtf16 bytes := by
  have hn : n < 0x110000 := by
    unfold Nat.isValidChar at h
    omega
  obtain ⟨hhigh, hlow⟩ := not_surrogate h
  unfold pointUnits
  by_cases hbasic : n < 0x10000
  · rw [if_pos hbasic, List.flatMap_singleton, unitBytes, List.cons_append, List.cons_append,
      List.nil_append, decodeUtf16, utf16Unit_bytes hbasic, hhigh, if_neg Bool.false_ne_true]
    dsimp only
    rw [hlow, Bool.or_false, if_neg Bool.false_ne_true, appendUtf8_eq hn]
  · obtain ⟨hhigh, hlow, hjoin⟩ := join_units hbasic hn
    rw [if_neg hbasic, List.flatMap_cons, List.flatMap_singleton]
    simp only [unitBytes, List.cons_append, List.nil_append]
    rw [decodeUtf16, utf16Unit_bytes (by omega), hhigh, if_pos rfl, lowAt, utf16Unit_bytes (by omega), hlow, if_pos rfl]
    dsimp only
    rw [hjoin, appendUtf8_eq hn]
    rfl

theorem decodeUtf16_valid (bytes : Bytes) : ∃ text : List Char, decodeUtf16 bytes = utf8 text := by
  fun_induction decodeUtf16 bytes with
  | case1 a b rest code low hlow ih =>
    split at hlow
    next hhigh => exact append_valid (join_valid hhigh (lowAt_some hlow)) ih
    · cases hlow
  | case2 a b rest code hnone ih =>
    split
    · exact append_valid replacement_valid ih
    next hne =>
      refine append_valid ?_ ih
      have hlt := utf16Unit_lt a b
      obtain ⟨hhigh, hlow⟩ := surrogate_iff code
      have : ¬ (isHighSurrogate code = true) ∧ ¬ (isLowSurrogate code = true) := by simpa using hne
      rw [hhigh, hlow] at this
      unfold Nat.isValidChar
      omega
  | case3 a => simpa using append_valid replacement_valid ⟨[], rfl⟩
  | case4 => exact ⟨[], rfl⟩

theorem packed32_eq (a b c d : UInt8) :
    a.toNat ||| b.toNat <<< 8 ||| c.toNat <<< 16 ||| d.toNat <<< 24 =
      a.toNat + b.toNat * 256 + c.toNat * 65536 + d.toNat * 16777216 := by
  have ha := a.toNat_lt
  have hb := b.toNat_lt
  have hc := c.toNat_lt
  have htwo : a.toNat ||| b.toNat <<< 8 = a.toNat + b.toNat * 256 := by
    rw [Nat.or_comm, ← Nat.shiftLeft_add_eq_or_of_lt (by omega), Nat.shiftLeft_eq]
    omega
  have hthree : (a.toNat + b.toNat * 256) ||| c.toNat <<< 16 =
      a.toNat + b.toNat * 256 + c.toNat * 65536 := by
    rw [Nat.or_comm, ← Nat.shiftLeft_add_eq_or_of_lt (by omega), Nat.shiftLeft_eq]
    omega
  rw [htwo, hthree, Nat.or_comm, ← Nat.shiftLeft_add_eq_or_of_lt (by omega), Nat.shiftLeft_eq]
  omega

/-- The four bytes of a code point, the lowest first. -/
def wordBytes (n : Nat) : Bytes :=
  [UInt8.ofNat n, UInt8.ofNat (n / 256), UInt8.ofNat (n / 65536), UInt8.ofNat (n / 16777216)]

theorem appendUtf32_eq (n : Nat) : appendUtf32 n = wordBytes n := by
  simp only [appendUtf32, List.map_cons, List.map_nil, byte_eq, Nat.shiftRight_eq_div_pow]
  rw [wordBytes, Nat.pow_zero, Nat.div_one]

theorem scalar_check : (lastScalar < n ∨ (highSurrogate ≤ n ∧ n ≤ lowSurrogate ||| surrogateMask)) ↔
    ¬ n.isValidChar := by
  have hlast : (lowSurrogate ||| surrogateMask : Nat) = 0xDFFF := rfl
  unfold Nat.isValidChar
  rw [hlast]
  simp only [lastScalar, highSurrogate]
  omega

theorem decodeUtf32_point (h : n.isValidChar) (bytes : Bytes) :
    decodeUtf32 (wordBytes n ++ bytes) = point n ++ decodeUtf32 bytes := by
  have hn : n < 0x110000 := by
    unfold Nat.isValidChar at h
    omega
  have hbyte : ∀ m, (UInt8.ofNat m).toNat = m % 256 := fun m => UInt8.toNat_ofNat'
  have hcode : (UInt8.ofNat n).toNat + (UInt8.ofNat (n / 256)).toNat * 256 +
      (UInt8.ofNat (n / 65536)).toNat * 65536 + (UInt8.ofNat (n / 16777216)).toNat * 16777216 = n := by
    rw [hbyte, hbyte, hbyte, hbyte]
    omega
  simp only [wordBytes, List.cons_append, List.nil_append]
  rw [decodeUtf32, packed32_eq, hcode, if_neg (fun hcheck => scalar_check.mp hcheck h), appendUtf8_eq hn]

theorem decodeUtf32_valid (bytes : Bytes) : ∃ text : List Char, decodeUtf32 bytes = utf8 text := by
  fun_induction decodeUtf32 bytes with
  | case1 a b c d rest code ih =>
    split
    · exact append_valid replacement_valid ih
    next hcheck => exact append_valid (not_not.mp (mt scalar_check.mpr hcheck)) ih
  | case2 => exact ⟨[], rfl⟩
  | case3 bytes => simpa using append_valid replacement_valid ⟨[], rfl⟩

/-! ### The encodings -/

/-- The bytes that a text has in an encoding. -/
def form (page : CodePage) (text : List Char) : Bytes :=
  match page with
  | .utf16 => (utf16 text).flatMap unitBytes
  | .utf32 => text.flatMap fun c => wordBytes c.toNat
  | _ => utf8 text

theorem form_cons (page : CodePage) (c : Char) (text : List Char) :
    form page (c :: text) = appendCode page c.toNat ++ form page text := by
  have hutf8 : utf8 (c :: text) = appendUtf8 c.toNat ++ utf8 text := by
    rw [utf8_cons, appendUtf8_eq (scalar_lt c)]
  cases page with
  | unset | default | utf8 => exact hutf8
  | utf16 =>
    show (utf16 (c :: text)).flatMap unitBytes = appendUtf16 c.toNat ++ _
    rw [utf16_cons, List.flatMap_append, appendUtf16_eq (scalar_lt c)]
    rfl
  | utf32 =>
    show (c :: text).flatMap (fun c => wordBytes c.toNat) = appendUtf32 c.toNat ++ _
    rw [List.flatMap_cons, appendUtf32_eq]
    rfl

/-- What codes that are a text's are written as. -/
theorem flatMap_appendCode (page : CodePage) (text : List Char) :
    (text.map Char.toNat).flatMap (appendCode page) = form page text := by
  induction text with
  | nil => cases page <;> rfl
  | cons c text ih => rw [List.map_cons, List.flatMap_cons, ih, form_cons]

theorem encode_utf8 (page : CodePage) (text : List Char) : encode page (utf8 text) = form page text := by
  rw [encode, textReader_codes, flatMap_appendCode]

theorem decode_form (page : CodePage) (text : List Char) : decode page (form page text) = utf8 text := by
  have hutf8 : (utf8Reader.codes (utf8 text)).flatMap (fun code : Nat => appendUtf8 code) = utf8 text := by
    rw [utf8Reader_codes, flatMap_appendUtf8]
  cases page with
  | unset | default | utf8 => exact hutf8
  | utf16 =>
    show decodeUtf16 ((utf16 text).flatMap unitBytes) = utf8 text
    induction text with
    | nil => rw [utf16_nil, List.flatMap_nil, decodeUtf16, utf8_nil]
    | cons c text ih =>
      rw [utf16_cons, List.flatMap_append, decodeUtf16_point (char_valid c), ih (by
        rw [utf8Reader_codes, flatMap_appendUtf8]), utf8_cons]
  | utf32 =>
    show decodeUtf32 (text.flatMap fun c => wordBytes c.toNat) = utf8 text
    clear hutf8
    induction text with
    | nil => rw [List.flatMap_nil, decodeUtf32, utf8_nil]
    | cons c text ih => rw [List.flatMap_cons, decodeUtf32_point (char_valid c), ih, utf8_cons]

theorem decode_valid (page : CodePage) (bytes : Bytes) : ∃ text : List Char, decode page bytes = utf8 text := by
  have hutf8 : ∃ text : List Char,
      (utf8Reader.codes bytes).flatMap (fun code : Nat => appendUtf8 code) = utf8 text := by
    obtain ⟨text, htext⟩ := text_of_codes (codes_valid bytes)
    exact ⟨text, by rw [htext, flatMap_appendUtf8]⟩
  cases page with
  | unset | default | utf8 => exact hutf8
  | utf16 => exact decodeUtf16_valid bytes
  | utf32 => exact decodeUtf32_valid bytes

/-! ### Valid UTF-8 -/

theorem isValidUtf8_point (h : n.isValidChar) (input : Bytes) :
    isValidUtf8 (point n ++ input) = isValidUtf8 input := by
  have hn : n < 0x110000 := by
    unfold Nat.isValidChar at h
    omega
  obtain ⟨first, tail, hpoint, hnext⟩ := next_point false (.inl h) input
  rw [hpoint, List.cons_append, isValidUtf8]
  by_cases hascii : first.toNat < 0x80
  · have hrest : nextUtf8 false first (tail ++ input) = (first.toNat, tail ++ input) := if_pos hascii
    rw [if_pos hascii, (Prod.mk.inj (hrest.symm.trans hnext)).2]
  · have htake : (first :: (tail ++ input)).take ((tail ++ input).length + 1 - input.length) = point n := by
      rw [hpoint, ← List.cons_append, List.length_append,
        show tail.length + input.length + 1 - input.length = (first :: tail).length by
          rw [List.length_cons]; omega]
      exact List.take_left
    rw [if_neg hascii]
    dsimp only
    rw [hnext, appendUtf8_eq hn, htake, if_pos rfl]

theorem isValidUtf8_iff (bytes : Bytes) : isValidUtf8 bytes = true ↔ ∃ text : List Char, bytes = utf8 text := by
  constructor
  · induction hlength : bytes.length using Nat.strongRecOn generalizing bytes with
    | ind length ih =>
      intro hvalid
      cases bytes with
      | nil => exact ⟨[], rfl⟩
      | cons first input =>
        have hshorter := (nextUtf8_suffix false first input).length_le
        rw [List.length_cons] at hlength
        obtain ⟨consumed, hsplit, hread⟩ := next_cases first input
        have hrest : isValidUtf8 (nextUtf8 false first input).2 = true ∧
            consumed = point (nextUtf8 false first input).1 := by
          rw [isValidUtf8] at hvalid
          by_cases hascii : first.toNat < 0x80
          · have hnext : nextUtf8 false first input = (first.toNat, input) := if_pos hascii
            rw [if_pos hascii] at hvalid
            rw [hnext] at hsplit ⊢
            refine ⟨hvalid, ?_⟩
            have hone : [first] = consumed := (List.append_left_inj input).mp hsplit
            rw [← hone, point, if_pos hascii, UInt8.ofNat_toNat]
          · rw [if_neg hascii] at hvalid
            dsimp only at hvalid
            have htake : (first :: input).take (input.length + 1 - (nextUtf8 false first input).2.length) =
                consumed := by
              have hcount := congrArg List.length hsplit
              rw [List.length_append, List.length_cons] at hcount
              rw [hcount, Nat.add_sub_cancel, hsplit, List.take_left]
            rw [htake] at hvalid
            rcases hread with ⟨hscalar, hpoint⟩ | ⟨hcode, hne⟩
            · split at hvalid
              · exact ⟨hvalid, hpoint⟩
              · cases hvalid
            · rw [hcode, appendUtf8_eq (by decide), if_neg (Ne.symm hne)] at hvalid
              cases hvalid
        rcases hread with ⟨hscalar, -⟩ | ⟨hcode, hne⟩
        · rw [hsplit, hrest.2, ← appendUtf8_eq (by unfold Nat.isValidChar at hscalar; omega)]
          exact append_valid hscalar (ih _ (by omega) _ rfl hrest.1)
        · rw [hcode] at hrest
          exact absurd hrest.2 hne
  · rintro ⟨text, rfl⟩
    induction text with
    | nil => rw [utf8_nil, isValidUtf8]
    | cons c text ih => rw [utf8_cons, isValidUtf8_point (char_valid c), ih]

/-! ### Units -/

theorem arrayToBytes_eq (bytes : Bytes) : arrayToBytes (bytesToArray bytes) 0 bytes.length = bytes := by
  have hbyte : ∀ b : UInt8, UInt8.ofInt (b.toNat : Int) = b := by
    intro b
    have hlt := b.toNat_lt
    have hlow : ((b.toNat : Int) % 2 ^ 8).toNat = b.toNat := by omega
    rw [UInt8.ofInt, hlow, UInt8.ofNat_toNat]
  have hlength : (bytesToArray bytes).length = bytes.length := List.length_map _
  rw [arrayToBytes, List.drop_zero, ← hlength, List.take_length, bytesToArray, List.map_map]
  exact (List.map_congr_left fun b _ => hbyte b).trans (List.map_id bytes)

/-- A text of the units of a text joins to it. -/
theorem textReader_units (text : List Char) :
    textReader.codes ((utf16 text).flatMap point) = text.map Char.toNat := by
  induction text with
  | nil => exact Reader.codes_nil _
  | cons c text ih =>
    rw [utf16_cons, List.flatMap_append, List.map_cons, pointUnits]
    by_cases hbasic : c.toNat < 0x10000
    · rw [if_pos hbasic, List.flatMap_singleton, textCodes_point (char_valid c), ih]
    · obtain ⟨hhigh, hlow, hjoin⟩ := join_units hbasic (scalar_lt c)
      rw [if_neg hbasic, List.flatMap_cons, List.flatMap_singleton, List.append_assoc,
        textCodes_pair hhigh hlow, hjoin, ih]

theorem getChars_eq (page : CodePage) (text : List Char) :
    getChars page (bytesToArray (form page text)) 0 (form page text).length =
      (utf16 text).map fun unit : Nat => (unit : Int) := by
  rw [getChars, arrayToBytes_eq, decode_form, utf8Reader_codes]
  induction text with
  | nil => rfl
  | cons c text ih =>
    rw [List.map_cons, List.flatMap_cons, ih, utf16_cons, List.map_append, unitsOfCode_eq (scalar_lt c)]

theorem unit_lt {text : List Char} {unit : Nat} (h : unit ∈ utf16 text) : unit < 0x110000 := by
  obtain ⟨c, -, hunit⟩ := List.mem_flatMap.mp h
  have hlt := scalar_lt c
  unfold pointUnits at hunit
  split at hunit
  · rw [List.mem_singleton] at hunit
    omega
  · rw [List.mem_cons, List.mem_singleton] at hunit
    omega

theorem getBytes_eq (page : CodePage) (text : List Char) :
    getBytes page ((utf16 text).map fun unit : Nat => (unit : Int)) 0 (utf16 text).length =
      bytesToArray (form page text) := by
  have hlength : ((utf16 text).map fun unit : Nat => (unit : Int)).length = (utf16 text).length :=
    List.length_map _
  have hpoints : ((utf16 text).map fun unit : Nat => (unit : Int)).flatMap appendUtf8 =
      (utf16 text).flatMap point := by
    rw [List.flatMap_map]
    exact List.flatMap_congr fun unit hunit => appendUtf8_eq (unit_lt hunit)
  rw [getBytes, List.drop_zero, ← hlength, List.take_length, hpoints, encode, textReader_units, flatMap_appendCode]

/-- **The Unicode encodings are inverse and total**: a text is encoded as its form, which
decodes to it; any bytes decode to a text; `IsValidUtf8` accepts the texts, which are the
bytes that decoding leaves as they are; and the units of a form are encoded as the form. -/
theorem unicode_is_inverse (page : CodePage) :
    (∀ text : List Char, encode page (utf8 text) = form page text ∧
      decode page (encode page (utf8 text)) = utf8 text) ∧
    (∀ bytes, (∃ text : List Char, decode page bytes = utf8 text) ∧
      decode page (encode page (decode page bytes)) = decode page bytes) ∧
    (∀ bytes, (isValidUtf8 bytes = true ↔ ∃ text : List Char, bytes = utf8 text) ∧
      (isValidUtf8 bytes = true ↔ decode .utf8 bytes = bytes)) ∧
    ∀ text : List Char,
      let bytes := bytesToArray (form page text)
      let chars := getChars page bytes 0 bytes.length
      chars = (utf16 text).map (fun unit : Nat => (unit : Int)) ∧
        getBytes page chars 0 chars.length = bytes := by
  have hinverse : ∀ text : List Char, decode page (encode page (utf8 text)) = utf8 text := fun text => by
    rw [encode_utf8, decode_form]
  refine ⟨fun text => ⟨encode_utf8 page text, hinverse text⟩, fun bytes => ?_, fun bytes => ?_, fun text => ?_⟩
  · obtain ⟨text, htext⟩ := decode_valid page bytes
    exact ⟨⟨text, htext⟩, by rw [htext, hinverse]⟩
  · refine ⟨isValidUtf8_iff bytes, (isValidUtf8_iff bytes).trans ⟨?_, fun h => ?_⟩⟩
    · rintro ⟨text, rfl⟩
      exact decode_form .utf8 text
    · obtain ⟨text, htext⟩ := decode_valid .utf8 bytes
      exact ⟨text, h.symm.trans htext⟩
  · have hlength : (bytesToArray (form page text)).length = (form page text).length := List.length_map _
    dsimp only
    rw [hlength, getChars_eq, List.length_map]
    exact ⟨rfl, getBytes_eq page text⟩

end Agiru.Codec
