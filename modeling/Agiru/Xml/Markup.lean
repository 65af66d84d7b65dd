import Agiru.Library.Bytes
import Agiru.Library.Occurs

/-! The policy on document types: the markup of an XML document before its root.

A document's bytes are read as units of one, two or four, of which one byte is the character; a
unit whose other bytes are not zero is no character of markup. `applyDtdPolicy` scans the comments,
instructions and spaces before the root, and refuses a document type or cuts it out. -/
namespace Agiru.Xml
open Bytes

/-! ### Units -/

/-- How a document's bytes are read: the units' width, which byte of a unit is the character, and
where they begin. -/
structure MarkupBytes where
  width : Nat
  low : Nat
  start : Nat
  positive : 0 < width
  deriving DecidableEq

namespace MarkupBytes

/-- The byte order mark, or how the first `<` is encoded. -/
def ofBytes (bytes : Bytes) : MarkupBytes :=
  if [0xFF, 0xFE, 0, 0].isPrefixOf bytes then ⟨4, 0, 4, by decide⟩
  else if [0, 0, 0xFE, 0xFF].isPrefixOf bytes then ⟨4, 3, 4, by decide⟩
  else if [0xFF, 0xFE].isPrefixOf bytes then ⟨2, 0, 2, by decide⟩
  else if [0xFE, 0xFF].isPrefixOf bytes then ⟨2, 1, 2, by decide⟩
  else if [0xEF, 0xBB, 0xBF].isPrefixOf bytes then ⟨1, 0, 3, by decide⟩
  else if [Ch.less, 0, 0, 0].isPrefixOf bytes then ⟨4, 0, 0, by decide⟩
  else if [0, 0, 0, Ch.less].isPrefixOf bytes then ⟨4, 3, 0, by decide⟩
  else if [Ch.less, 0].isPrefixOf bytes then ⟨2, 0, 0, by decide⟩
  else if [0, Ch.less].isPrefixOf bytes then ⟨2, 1, 0, by decide⟩
  else ⟨1, 0, 0, by decide⟩

variable (source : MarkupBytes)

/-- `Append`. -/
def append (bytes text : Bytes) : Bytes :=
  bytes ++ text.flatMap fun c => (List.replicate source.width 0).set source.low c

/-- `At`. -/
def characterAt (bytes : Bytes) (offset : Nat) : UInt8 :=
  if bytes.length < offset + source.width then 0
  else if (List.range source.width).any fun i => i ≠ source.low && bytes.getD (offset + i) 0 ≠ 0 then 0xFF
  else bytes.getD (offset + source.low) 0

/-- `Is`. -/
def stands (bytes : Bytes) (offset : Nat) : Bytes → Bool
  | [] => true
  | c :: text => source.characterAt bytes offset = c && stands bytes (offset + source.width) text

/-- The loop of `After`. -/
def afterFrom (bytes terminal : Bytes) : Nat → Nat → Nat
  | 0, _ => bytes.length
  | turns + 1, offset =>
    if offset < bytes.length then
      if source.stands bytes offset terminal then offset + terminal.length * source.width
      else afterFrom bytes terminal turns (offset + source.width)
    else bytes.length

/-- `After`: behind the first terminal from the offset on. -/
def after (bytes : Bytes) (offset : Nat) (terminal : Bytes) : Nat :=
  source.afterFrom bytes terminal (bytes.length + 1) offset

end MarkupBytes

/-- `XmlSpace`. -/
def xmlSpace (c : UInt8) : Bool := c = Ch.blank || c = Ch.tab || c = Ch.carriageReturn || c = 10

section
variable (source : MarkupBytes) (bytes : Bytes)

/-- The loop of `SkipSpace`; past the end there is no space. -/
def skipSpaceFrom : Nat → Nat → Nat
  | 0, offset => offset
  | turns + 1, offset =>
    if xmlSpace (source.characterAt bytes offset) then skipSpaceFrom turns (offset + source.width) else offset

def skipSpace (offset : Nat) : Nat := skipSpaceFrom source bytes (bytes.length + 1) offset

/-- The loop of `SkipQuoted`: behind the closing quote. -/
def closingFrom (quote : UInt8) : Nat → Nat → Option Nat
  | 0, _ => none
  | turns + 1, offset =>
    if offset < bytes.length then
      if source.characterAt bytes offset = quote then some (offset + source.width)
      else closingFrom quote turns (offset + source.width)
    else none

def isQuote (c : UInt8) : Bool := c = Ch.quote || c = Ch.doubleQuote

/-- `SkipQuoted`: where it answers true, behind the literal. -/
def skipQuoted (offset : Nat) : Option Nat :=
  let quote := source.characterAt bytes offset
  if isQuote quote then closingFrom source bytes quote (bytes.length + 1) (offset + source.width) else none

def openBracket : UInt8 := 91
def closeBracket : UInt8 := 93

/-- The characters of a document type's name. -/
def inName (c : UInt8) : Bool := !xmlSpace c && c ≠ openBracket && c ≠ Ch.greater

def nameEndFrom : Nat → Nat → Nat
  | 0, offset => offset
  | turns + 1, offset =>
    if offset < bytes.length && inName (source.characterAt bytes offset) then
      nameEndFrom turns (offset + source.width)
    else offset

def doctypeOpen : Bytes := ascii "<!DOCTYPE"

def headerEnds (offset : Nat) : Bool :=
  source.characterAt bytes offset = openBracket || source.characterAt bytes offset = Ch.greater

/-- What a literal and the spaces before it are followed by. -/
def gapAndQuoted (offset : Nat) : Option Nat :=
  if xmlSpace (source.characterAt bytes offset) then skipQuoted source bytes (skipSpace source bytes offset)
  else none

/-- The external id of `DoctypeHeaderEnd`, from its keyword on. -/
def externalEnd (offset : Nat) : Option Nat :=
  let publicId := source.stands bytes offset (ascii "PUBLIC")
  if !publicId && !source.stands bytes offset (ascii "SYSTEM") then none
  else
    match gapAndQuoted source bytes (offset + 6 * source.width) with
    | none => none
    | some offset => if publicId then gapAndQuoted source bytes offset else some offset

/-- `DoctypeHeaderEnd`: the subset's bracket or the closing `>`, where there is one. -/
def doctypeHeaderEnd (start : Nat) : Option Nat :=
  let offset := start + doctypeOpen.length * source.width
  if !xmlSpace (source.characterAt bytes offset) then none
  else
    let name := skipSpace source bytes offset
    let offset := nameEndFrom source bytes (bytes.length + 1) name
    if offset = name then none
    else
      let offset := skipSpace source bytes offset
      if headerEnds source bytes offset then some offset
      else
        match externalEnd source bytes offset with
        | none => none
        | some offset =>
          let offset := skipSpace source bytes offset
          if headerEnds source bytes offset then some offset else none

/-- The loop of `DoctypeEnd`, inside the subset; behind a comment or an instruction the step it takes
is taken back first. -/
def subsetEndFrom : Nat → Option UInt8 → Nat → Option Nat
  | 0, _, _ => none
  | turns + 1, quote, offset =>
    if offset < bytes.length then
      let c := source.characterAt bytes offset
      match quote with
      | some quoted =>
        subsetEndFrom turns (if c = quoted then none else some quoted) (offset + source.width)
      | none =>
        if source.stands bytes offset (ascii "<!--") then
          subsetEndFrom turns none (source.after bytes offset (ascii "-->"))
        else if source.stands bytes offset (ascii "<?") then
          subsetEndFrom turns none (source.after bytes offset (ascii "?>"))
        else if isQuote c then subsetEndFrom turns (some c) (offset + source.width)
        else if c = closeBracket then
          let offset := skipSpace source bytes (offset + source.width)
          if source.characterAt bytes offset = Ch.greater then some (offset + source.width) else none
        else subsetEndFrom turns none (offset + source.width)
    else none

/-- `DoctypeEnd`: behind the declaration, where it is one. -/
def doctypeEnd (start : Nat) : Option Nat :=
  match doctypeHeaderEnd source bytes start with
  | none => none
  | some offset =>
    if source.characterAt bytes offset = Ch.greater then some (offset + source.width)
    else subsetEndFrom source bytes (bytes.length + 1) none (offset + source.width)

end

/-! ### The policy -/

/-- `RetainBytes`: the bytes are moved to the end of what was retained. -/
def retainBytes (text : Bytes) (first last written : Nat) : Bytes × Nat :=
  let count := last - first
  (if first ≠ written ∧ count ≠ 0 then
      text.take written ++ (text.drop first).take count ++ text.drop (written + count)
    else text,
    written + count)

def prohibited : Bytes := ascii "XmlReader.Read: DTD processing is prohibited"
def malformed : Bytes := ascii "XmlReader.Read: the DTD is not well-formed XML"
def boundary : Bytes := ascii "<dtd-policy-boundary/>"

/-- The text, what of it is retained, and from where on the rest is not yet. -/
structure Cutting where
  text : Bytes
  retained : Nat := 0
  segment : Nat := 0

/-- The retained text, and why reading fails. -/
structure Applied where
  text : Bytes
  failure : Option Bytes
  deriving DecidableEq

def Cutting.finish (cutting : Cutting) : Applied :=
  let (text, written) := retainBytes cutting.text cutting.segment cutting.text.length cutting.retained
  ⟨text.take written, none⟩

/-- The text up to the declaration, and an element in its place. -/
def Cutting.fail (source : MarkupBytes) (cutting : Cutting) (offset : Nat) (failure : Bytes) : Applied :=
  let (text, written) := retainBytes cutting.text cutting.segment offset cutting.retained
  ⟨source.append (text.take written) boundary, some failure⟩

/-- The loop of `ApplyDtdPolicy`. -/
def policyFrom (source : MarkupBytes) (prohibit : Bool) : Nat → Cutting → Nat → Applied
  | 0, cutting, _ => cutting.finish
  | turns + 1, cutting, offset =>
    if offset < cutting.text.length then
      if xmlSpace (source.characterAt cutting.text offset) then
        policyFrom source prohibit turns cutting (offset + source.width)
      else if source.stands cutting.text offset (ascii "<!--") then
        policyFrom source prohibit turns cutting (source.after cutting.text offset (ascii "-->"))
      else if source.stands cutting.text offset (ascii "<?") then
        policyFrom source prohibit turns cutting (source.after cutting.text offset (ascii "?>"))
      else if source.stands cutting.text offset doctypeOpen then
        if prohibit then cutting.fail source offset prohibited
        else
          match doctypeEnd source cutting.text offset with
          | none => cutting.fail source offset malformed
          | some behind =>
            let (text, written) := retainBytes cutting.text cutting.segment offset cutting.retained
            policyFrom source prohibit turns ⟨text, written, behind⟩ behind
      else cutting.finish
    else cutting.finish

inductive DtdProcessing
  | prohibit | ignore | parse
  deriving Repr, DecidableEq

/-- `ApplyDtdPolicy`, of the three values that it takes. -/
def applyDtdPolicy (processing : DtdProcessing) (text : Bytes) : Applied :=
  match processing with
  | .parse => ⟨text, none⟩
  | .prohibit => policyFrom (.ofBytes text) true (text.length + 1) ⟨text, 0, 0⟩ (MarkupBytes.ofBytes text).start
  | .ignore => policyFrom (.ofBytes text) false (text.length + 1) ⟨text, 0, 0⟩ (MarkupBytes.ofBytes text).start

end Agiru.Xml
