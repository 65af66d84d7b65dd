import Agiru.Library.Utf

/-! The Unicode encodings: texts to bytes, bytes to texts, and UTF-16 units in between.

A text is UTF-8; one that was made of single UTF-16 units may hold surrogates, which are
joined again when it is encoded. -/
namespace Agiru.Codec

abbrev surrogateBase : Nat := 0x10000
abbrev highSurrogate : Nat := 0xD800
abbrev lowSurrogate : Nat := 0xDC00
abbrev surrogateMask : Nat := 0x3FF
abbrev unicodeReplacement : Nat := 0xFFFD
abbrev lastScalar : Nat := 0x10FFFF

/-- `AppendUtf8`. What it appends for a negative code is its low byte. -/
def appendUtf8 (code : Int) : Bytes :=
  if code < 0x80 then [UInt8.ofInt code]
  else
    let code := code.toNat
    if code < 0x800 then [UInt8.ofNat (0xC0 ||| code >>> 6), UInt8.ofNat (0x80 ||| code &&& 0x3F)]
    else if code < surrogateBase then
      [UInt8.ofNat (0xE0 ||| code >>> 12), UInt8.ofNat (0x80 ||| (code >>> 6) &&& 0x3F),
        UInt8.ofNat (0x80 ||| code &&& 0x3F)]
    else
      [UInt8.ofNat (0xF0 ||| code >>> 18), UInt8.ofNat (0x80 ||| (code >>> 12) &&& 0x3F),
        UInt8.ofNat (0x80 ||| (code >>> 6) &&& 0x3F), UInt8.ofNat (0x80 ||| code &&& 0x3F)]

def isHighSurrogate (code : Nat) : Bool := highSurrogate ≤ code && code < lowSurrogate

def isLowSurrogate (code : Nat) : Bool :=
  lowSurrogate ≤ code && code ≤ lowSurrogate ||| surrogateMask

def joinSurrogates (high low : Nat) : Nat :=
  surrogateBase + ((high - highSurrogate) <<< 10) + low - lowSurrogate

/-! ### Reading UTF-8 -/

/-- A second byte that no scalar has after its first. -/
def refusesSecond (lead byte : Nat) (allowSurrogates : Bool) : Bool :=
  (lead = 0xE0 && byte < 0xA0) || (lead = 0xED && 0xA0 ≤ byte && !allowSurrogates) ||
    (lead = 0xF0 && byte < 0x90) || (lead = 0xF4 && 0x90 ≤ byte)

/-- The loop of `NextUtf8`: so many bytes are left, the next of which may be the second. -/
def nextBytes (lead : Nat) (allowSurrogates : Bool) :
    (left : Nat) → (second : Bool) → (code : Nat) → Bytes → Nat × Bytes
  | 0, _, code, input => (code, input)
  | _ + 1, _, _, [] => (unicodeReplacement, [])
  | left + 1, second, code, b :: input =>
    let byte := b.toNat
    if byte < 0x80 ∨ 0x80 ||| 0x3F < byte then (unicodeReplacement, b :: input)
    else if second && refusesSecond lead byte allowSurrogates then (unicodeReplacement, b :: input)
    else nextBytes lead allowSurrogates left false (code <<< 6 ||| byte &&& 0x3F) input

/-- `NextUtf8`: the code point that a byte begins, and what follows it. -/
def nextUtf8 (allowSurrogates : Bool) (first : UInt8) (input : Bytes) : Nat × Bytes :=
  let lead := first.toNat
  if lead < 0x80 then (lead, input)
  else if lead < 0xC2 ∨ 0xF4 < lead then (unicodeReplacement, input)
  else
    let length := if lead < 0xE0 then 2 else if lead < 0xF0 then 3 else 4
    nextBytes lead allowSurrogates (length - 1) true (lead &&& (0x7F >>> length)) input

/-- `NextTextScalar`: a high surrogate is joined with a low one that follows it. -/
def nextTextScalar (first : UInt8) (input : Bytes) : Nat × Bytes :=
  let (code, rest) := nextUtf8 true first input
  match isHighSurrogate code, rest with
  | true, second :: after =>
    let (low, after) := nextUtf8 true second after
    if isLowSurrogate low then (joinSurrogates code low, after) else (unicodeReplacement, rest)
  | high, _ => (if high || isLowSurrogate code then unicodeReplacement else code, rest)

theorem nextBytes_suffix (lead : Nat) (allow : Bool) (left : Nat) (second : Bool) (code : Nat)
    (input : Bytes) : (nextBytes lead allow left second code input).2 <:+ input := by
  induction left generalizing second code input with
  | zero => exact List.suffix_refl _
  | succ left ih =>
    cases input with
    | nil => exact List.suffix_refl _
    | cons b input =>
      unfold nextBytes
      dsimp only
      split
      · exact List.suffix_refl _
      · split
        · exact List.suffix_refl _
        · exact (ih _ _ _).trans (List.suffix_cons _ _)

theorem nextUtf8_suffix (allow : Bool) (first : UInt8) (input : Bytes) :
    (nextUtf8 allow first input).2 <:+ input := by
  unfold nextUtf8
  dsimp only
  split
  · exact List.suffix_refl _
  · split
    · exact List.suffix_refl _
    · exact nextBytes_suffix _ _ _ _ _ _

theorem nextTextScalar_suffix (first : UInt8) (input : Bytes) :
    (nextTextScalar first input).2 <:+ input := by
  have hfirst := nextUtf8_suffix true first input
  unfold nextTextScalar
  generalize nextUtf8 true first input = read at hfirst ⊢
  obtain ⟨code, rest⟩ := read
  dsimp only at hfirst ⊢
  split
  next second after _ =>
    split
    · exact ((nextUtf8_suffix true second after).trans (List.suffix_cons _ _)).trans hfirst
    · exact hfirst
  · exact hfirst

/-- A reader of code points, which reads on from where it is. -/
structure Reader where
  next : UInt8 → Bytes → Nat × Bytes
  suffix : ∀ first input, (next first input).2 <:+ input

namespace Reader

/-- The code points of bytes. -/
def codes (reader : Reader) : Bytes → List Nat
  | [] => []
  | first :: input => (reader.next first input).1 :: reader.codes (reader.next first input).2
termination_by input => input.length
decreasing_by exact Nat.lt_succ_of_le (reader.suffix first input).length_le

@[simp] theorem codes_nil (reader : Reader) : reader.codes [] = [] := by
  rw [codes]

theorem codes_cons (reader : Reader) (first : UInt8) (input : Bytes) :
    reader.codes (first :: input) =
      (reader.next first input).1 :: reader.codes (reader.next first input).2 := by
  rw [codes]

end Reader

/-- The loop over what `NextUtf8` reads, without surrogates. -/
def utf8Reader : Reader := ⟨nextUtf8 false, nextUtf8_suffix false⟩

/-- The loop over what `NextTextScalar` reads. -/
def textReader : Reader := ⟨nextTextScalar, nextTextScalar_suffix⟩

/-! ### UTF-16 and UTF-32 -/

def appendUtf16Unit (code : Nat) : Bytes :=
  [UInt8.ofNat (code &&& 0xFF), UInt8.ofNat ((code >>> 8) &&& 0xFF)]

/-- The units of a code point. -/
def unitsOfCode (code : Nat) : List Nat :=
  if surrogateBase ≤ code then
    let offset := code - surrogateBase
    [highSurrogate ||| offset >>> 10, lowSurrogate ||| offset &&& surrogateMask]
  else [code]

def appendUtf16 (code : Nat) : Bytes := (unitsOfCode code).flatMap appendUtf16Unit

def utf16Unit (a b : UInt8) : Nat := a.toNat ||| b.toNat <<< 8

/-- The low surrogate that bytes begin with. -/
def lowAt : Bytes → Option Nat
  | a :: b :: _ => if isLowSurrogate (utf16Unit a b) then some (utf16Unit a b) else none
  | _ => none

def decodeUtf16 : Bytes → Bytes
  | a :: b :: rest =>
    let code := utf16Unit a b
    match if isHighSurrogate code then lowAt rest else none with
    | some low => appendUtf8 (joinSurrogates code low) ++ decodeUtf16 (rest.drop 2)
    | none =>
      appendUtf8 (if isHighSurrogate code || isLowSurrogate code then unicodeReplacement else code) ++
        decodeUtf16 rest
  | [_] => appendUtf8 unicodeReplacement
  | [] => []
termination_by bytes => bytes.length

def appendUtf32 (code : Nat) : Bytes :=
  [0, 8, 16, 24].map fun shift => UInt8.ofNat ((code >>> shift) &&& 0xFF)

def decodeUtf32 : Bytes → Bytes
  | a :: b :: c :: d :: rest =>
    let code := a.toNat ||| b.toNat <<< 8 ||| c.toNat <<< 16 ||| d.toNat <<< 24
    appendUtf8 (if lastScalar < code ∨ (highSurrogate ≤ code ∧ code ≤ lowSurrogate ||| surrogateMask) then
      unicodeReplacement else code) ++ decodeUtf32 rest
  | [] => []
  | _ => appendUtf8 unicodeReplacement

/-! ### Encodings -/

/-- The code pages of the Unicode encodings. -/
inductive CodePage
  | unset
  | default
  | utf8
  | utf16
  | utf32
  deriving DecidableEq

/-- What a code page appends for a code point. -/
def appendCode : CodePage → Nat → Bytes
  | .utf32, code => appendUtf32 code
  | .utf16, code => appendUtf16 code
  | _, code => appendUtf8 code

/-- `Encoding::Encode`. -/
def encode (page : CodePage) (text : Bytes) : Bytes := (textReader.codes text).flatMap (appendCode page)

/-- `Encoding::Decode`. -/
def decode (page : CodePage) (bytes : Bytes) : Bytes :=
  match page with
  | .utf32 => decodeUtf32 bytes
  | .utf16 => decodeUtf16 bytes
  | _ => (utf8Reader.codes bytes).flatMap fun code : Nat => appendUtf8 code

def bytesToArray (bytes : Bytes) : List Int := bytes.map fun b => b.toNat

/-- The low bytes of the values from an index on. -/
def arrayToBytes (values : List Int) (index count : Nat) : Bytes :=
  ((values.drop index).take count).map fun value => UInt8.ofInt value

/-- `Encoding::GetChars`. -/
def getChars (page : CodePage) (bytes : List Int) (index count : Nat) : List Int :=
  (utf8Reader.codes (decode page (arrayToBytes bytes index count))).flatMap fun code =>
    (unitsOfCode code).map fun unit : Nat => (unit : Int)

/-- `Encoding::GetBytes` of units. -/
def getBytes (page : CodePage) (chars : List Int) (index count : Nat) : List Int :=
  bytesToArray (encode page (((chars.drop index).take count).flatMap appendUtf8))

/-- `IsValidUtf8`. -/
def isValidUtf8 : Bytes → Bool
  | [] => true
  | first :: input =>
    if first.toNat < 0x80 then isValidUtf8 input
    else
      let read := nextUtf8 false first input
      if appendUtf8 read.1 = (first :: input).take (input.length + 1 - read.2.length) then
        isValidUtf8 read.2
      else false
termination_by bytes => bytes.length
decreasing_by
  · exact Nat.lt_succ_self _
  · exact Nat.lt_succ_of_le (nextUtf8_suffix false first input).length_le

end Agiru.Codec
