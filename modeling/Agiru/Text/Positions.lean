import Agiru.Library.Utf
import Agiru.Values.Clock

/-! Texts are UTF-8, and AL counts them in UTF-16 units.

A byte that goes on with a character (`10xxxxxx`) counts nothing, one that begins a
character of four bytes counts two. Positions count from one. -/
namespace Agiru.Text
open Bytes Utf

variable {unit : Nat}

def isContinuation (b : UInt8) : Bool := b &&& 0xC0 = 0x80

/-- The units that a first byte stands for. -/
def unitsOf (b : UInt8) : Nat := if 0xF0 ≤ b then 2 else 1

def utf16Length : Bytes → Nat
  | [] => 0
  | b :: rest => if isContinuation b then utf16Length rest else unitsOf b + utf16Length rest

/-- `ByteOfUnit`, from a byte on and the unit it is at. -/
def byteFrom (unit : Nat) (here i : Nat) : Bytes → Nat
  | [] => i
  | b :: rest =>
    if isContinuation b then byteFrom unit here (i + 1) rest
    else if here = unit then i
    else byteFrom unit (here + unitsOf b) (i + 1) rest

def byteOfUnit (s : Bytes) (unit : Nat) : Nat := byteFrom unit 1 0 s

def unitOfByte (s : Bytes) (byte : Nat) : Nat := utf16Length (s.take (min byte s.length)) + 1

/-- `substr(from, upto - from)`, where a negative length is as much as there is. -/
def extract (s : Bytes) (start upto : Nat) : Bytes :=
  if start ≤ upto then (s.drop start).take (upto - start) else s.drop start

def checkLength (s : Bytes) (max : Nat) : Except Bytes Unit :=
  if max = 0 then .ok ()
  else if max < utf16Length s then
    .error (ascii "The length of the string is " ++ natText (utf16Length s) ++
      ascii ", but it must be less than or equal to " ++ natText max ++ ascii " characters. Value: '" ++
      s ++ ascii "'.")
  else .ok ()

def copyStr (s : Bytes) (position : Int) (length : Option Int) : Except Bytes Bytes :=
  if position < 1 then .error (ascii "CopyStr: the position must be 1 or more")
  else if length.any (· < 0) then .error (ascii "CopyStr: the length must be 0 or more")
  else
    let start := byteOfUnit s position.toNat
    if s.length ≤ start then .ok []
    else
      match length with
      | none => .ok (s.drop start)
      | some length => .ok (extract s start (byteOfUnit s (position.toNat + length.toNat)))

def delStr (s : Bytes) (position : Int) (length : Option Int) : Except Bytes Bytes :=
  if position < 1 then .error (ascii "DelStr: the position must be 1 or more")
  else if length.any (· < 1) then .error (ascii "DelStr: the length must be 1 or more")
  else
    let start := byteOfUnit s position.toNat
    if s.length ≤ start then .ok s
    else
      match length with
      | none => .ok (s.take start)
      | some length => .ok (s.take start ++ s.drop (byteOfUnit s (position.toNat + length.toNat)))

def padStr (s : Bytes) (length : Int) (fill : Option Bytes) : Except Bytes Bytes :=
  let filler := fill.getD (ascii " ")
  if length < 0 then .error (ascii "PadStr: the length must be 0 or more")
  else if utf16Length filler ≠ 1 then
    .error (ascii "PadStr: the fill character must be exactly one character")
  else if length.toNat ≤ utf16Length s then .ok (s.take (byteOfUnit s (length.toNat + 1)))
  else .ok (s ++ (List.replicate (length.toNat - utf16Length s) filler).flatten)

/-- `StartByte`. -/
def startByte (s : Bytes) (startIndex : Int) : Nat :=
  byteOfUnit s (if startIndex < 1 then 1 else startIndex.toNat)

def removeText (s : Bytes) (startIndex : Int) (count : Option Int) : Bytes :=
  let start := startByte s startIndex
  match count with
  | none => s.take start
  | some count =>
    let upto := if count ≤ 0 then start else byteOfUnit s (unitOfByte s start + count.toNat)
    s.take start ++ s.drop upto

def substringText (s : Bytes) (startIndex : Int) (count : Option Int) : Except Bytes Bytes :=
  if startIndex < 1 ∨ utf16Length s + 1 < startIndex then
    .error (ascii "the string index " ++ intText startIndex ++ ascii " is outside 1.." ++
      natText (utf16Length s))
  else
    let start := startByte s startIndex
    match count with
    | none => .ok (s.drop start)
    | some count =>
      if count < 0 then .error (ascii "a substring cannot have a negative length")
      else .ok (extract s start (byteOfUnit s (startIndex.toNat + count.toNat)))

/-! ### Text positions are UTF-16 positions, up to a position inside a surrogate pair.

`byteOfUnit` finds the byte at which the characters before a unit end; a unit inside a
pair it steps over, and then it finds the end of the text (`cut_exists`). What the five
functions return follows from where the two ends of a piece are cut. -/

theorem isContinuation_iff (b : UInt8) : isContinuation b = true ↔ continues b := by
  have hall : ∀ n < 256, isContinuation (UInt8.ofNat n) = true ↔ n / 64 = 2 := by decide +kernel
  simpa [continues] using hall b.toNat b.toNat_lt

theorem unitsOf_eq (b : UInt8) : unitsOf b = if 0xF0 ≤ b.toNat then 2 else 1 := by
  simp only [unitsOf, UInt8.le_iff_toNat_le]
  rfl

/-! ### Characters -/

theorem utf16Length_continues {rest : Bytes} (h : ∀ b ∈ rest, continues b) (s : Bytes) :
    utf16Length (rest ++ s) = utf16Length s := by
  induction rest with
  | nil => rfl
  | cons b rest ih =>
    obtain ⟨hb, hrest⟩ := List.forall_mem_cons.mp h
    rw [List.cons_append, utf16Length, if_pos ((isContinuation_iff b).mpr hb), ih hrest]

theorem byteFrom_continues {rest : Bytes} (h : ∀ b ∈ rest, continues b) (unit here i : Nat) (s : Bytes) :
    byteFrom unit here i (rest ++ s) = byteFrom unit here (i + rest.length) s := by
  induction rest generalizing i with
  | nil => rfl
  | cons b rest ih =>
    obtain ⟨hb, hrest⟩ := List.forall_mem_cons.mp h
    rw [List.cons_append, byteFrom, if_pos ((isContinuation_iff b).mpr hb), ih hrest, List.length_cons,
      Nat.add_right_comm, Nat.add_assoc]

theorem utf16Length_utf8_append (text : List Char) (s : Bytes) :
    utf16Length (utf8 text ++ s) = (utf16 text).length + utf16Length s := by
  induction text with
  | nil => simp
  | cons c text ih =>
    obtain ⟨first, rest, hpoint, hfirst, hrest, hunits⟩ := point_shape (scalar_lt c)
    rw [utf8_cons, hpoint, List.append_assoc, List.cons_append, utf16Length,
      if_neg (mt (isContinuation_iff first).mp hfirst), utf16Length_continues hrest, ih, unitsOf_eq,
      ← hunits, utf16_cons, List.length_append, Nat.add_assoc]

@[simp] theorem utf16Length_utf8 (text : List Char) : utf16Length (utf8 text) = (utf16 text).length := by
  simpa [utf16Length] using utf16Length_utf8_append text []

theorem byteFrom_cons (unit here i : Nat) (c : Char) (text : List Char) :
    byteFrom unit here i (utf8 (c :: text)) =
      if here = unit then i
      else byteFrom unit (here + (pointUnits c.toNat).length) (i + (point c.toNat).length) (utf8 text) := by
  obtain ⟨first, rest, hpoint, hfirst, hrest, hunits⟩ := point_shape (scalar_lt c)
  rw [utf8_cons, hpoint, List.cons_append, byteFrom, if_neg (mt (isContinuation_iff first).mp hfirst),
    byteFrom_continues hrest, unitsOf_eq, ← hunits, List.length_cons, Nat.add_assoc, Nat.add_comm 1]

/-! ### Where a text is cut -/

/-- A position between the two units of a character outside the basic plane. -/
def InsidePair (text : List Char) (unit : Nat) : Prop :=
  ∃ before c after, text = before ++ c :: after ∧ 0x10000 ≤ c.toNat ∧ unit = (utf16 before).length + 2

theorem pointUnits_length (n : Nat) : (pointUnits n).length = if n < 0x10000 then 1 else 2 := by
  unfold pointUnits
  split <;> rfl

theorem InsidePair.cons {text : List Char} (c : Char) (h : InsidePair text unit) :
    InsidePair (c :: text) ((pointUnits c.toNat).length + unit) := by
  obtain ⟨before, d, after, rfl, hd, rfl⟩ := h
  exact ⟨c :: before, d, after, rfl, hd, by simp; omega⟩

/-- No character ends inside a pair. -/
theorem not_insidePair {before after : List Char} :
    ¬ InsidePair (before ++ after) ((utf16 before).length + 1) := by
  rintro ⟨start, c, rest, hsplit, hc, hunit⟩
  have hpair : (pointUnits c.toNat).length = 2 := by rw [pointUnits_length, if_neg (by omega)]
  rcases List.append_eq_append_iff.mp hsplit with ⟨m, rfl, -⟩ | ⟨m, rfl, hm⟩
  · rw [utf16_append, List.length_append] at hunit
    omega
  · cases m with
    | nil => simp at hunit
    | cons d m =>
      obtain rfl : c = d := (List.cons.inj hm).1
      rw [utf16_append, utf16_cons, List.length_append, List.length_append, hpair] at hunit
      omega

theorem byteFrom_passed {here : Nat} (h : unit < here) (i : Nat) (text : List Char) :
    byteFrom unit here i (utf8 text) = i + (utf8 text).length := by
  induction text generalizing here i with
  | nil => rfl
  | cons c text ih =>
    rw [byteFrom_cons, if_neg (by omega), ih (by omega), utf8_cons, List.length_append, Nat.add_assoc]

/-- The byte of a unit ends what is before it, or the text where no character ends there. -/
theorem byteFrom_eq {here : Nat} (h : here ≤ unit) (i : Nat) (text : List Char) :
    ∃ before after, text = before ++ after ∧
      byteFrom unit here i (utf8 text) = i + (utf8 before).length ∧
      (here + (utf16 before).length = unit ∨
        after = [] ∧ (InsidePair text (unit - here + 1) ∨ here + (utf16 text).length < unit)) := by
  induction text generalizing here i with
  | nil =>
    refine ⟨[], [], rfl, rfl, ?_⟩
    rcases Nat.lt_or_eq_of_le h with hlt | rfl
    · exact .inr ⟨rfl, .inr hlt⟩
    · exact .inl rfl
  | cons c text ih =>
    rw [byteFrom_cons]
    by_cases hhere : here = unit
    · rw [if_pos hhere]
      exact ⟨[], c :: text, rfl, rfl, .inl hhere⟩
    · rw [if_neg hhere]
      by_cases hnext : here + (pointUnits c.toNat).length ≤ unit
      · obtain ⟨before, after, rfl, hbyte, hcut⟩ := ih hnext (i + (point c.toNat).length)
        refine ⟨c :: before, after, rfl, ?_, ?_⟩
        · rw [hbyte, utf8_cons, List.length_append, Nat.add_assoc]
        · rw [utf16_cons, utf16_cons, List.length_append, List.length_append, ← Nat.add_assoc, ← Nat.add_assoc]
          refine hcut.imp_right fun ⟨hnil, hunit⟩ => ⟨hnil, hunit.imp_left fun hinside => ?_⟩
          have hsum : unit - here + 1 = (pointUnits c.toNat).length +
              (unit - (here + (pointUnits c.toNat).length) + 1) := by omega
          rw [hsum]
          exact hinside.cons c
      · have hlength := pointUnits_length c.toNat
        refine ⟨c :: text, [], by simp, ?_, .inr ⟨rfl, .inl ⟨[], c, text, rfl, ?_, ?_⟩⟩⟩
        · rw [byteFrom_passed (by omega), utf8_cons, List.length_append, Nat.add_assoc]
        · split at hlength <;> omega
        · split at hlength
          · omega
          · simp
            omega

/-- Where a unit cuts a text. -/
structure Cut (text : List Char) (unit : Nat) (before after : List Char) : Prop where
  split : text = before ++ after
  byte : byteOfUnit (utf8 text) unit = (utf8 before).length
  /-- A unit inside a pair cuts it at its end. -/
  inside : InsidePair text unit → after = []
  units : ¬ InsidePair text unit →
    utf16 before = (utf16 text).take (unit - 1) ∧ utf16 after = (utf16 text).drop (unit - 1)

theorem cut_exists (text : List Char) (h : 1 ≤ unit) : ∃ before after, Cut text unit before after := by
  obtain ⟨before, after, rfl, hbyte, hcut⟩ := byteFrom_eq h 0 text
  rw [Nat.zero_add] at hbyte
  refine ⟨before, after, rfl, hbyte, fun hinside => ?_, fun hinside => ?_⟩
  · rcases hcut with hunit | ⟨hnil, -⟩
    · rw [← hunit, Nat.add_comm] at hinside
      exact absurd hinside not_insidePair
    · exact hnil
  · rw [utf16_append]
    rcases hcut with hunit | ⟨rfl, hin | hpast⟩
    · have hlength : (utf16 before).length = unit - 1 := by omega
      rw [← hlength]
      exact ⟨(List.take_left' rfl).symm, (List.drop_left' rfl).symm⟩
    · rw [Nat.sub_add_cancel h] at hin
      exact absurd hin hinside
    · rw [List.append_nil] at hpast
      rw [utf16_nil, List.append_nil]
      exact ⟨(List.take_of_length_le (by omega)).symm, (List.drop_of_length_le (by omega)).symm⟩

theorem InsidePair.le {text : List Char} (h : InsidePair text unit) : unit ≤ (utf16 text).length := by
  obtain ⟨before, c, after, rfl, hc, rfl⟩ := h
  rw [utf16_append, utf16_cons, List.length_append, List.length_append, pointUnits_length, if_neg (by omega)]
  omega

/-- Of two beginnings of a text, the one with no more units begins the other. -/
theorem beginning_of_units {before after before' after' : List Char}
    (h : before ++ after = before' ++ after') (hle : (utf16 before).length ≤ (utf16 before').length) :
    ∃ part, before' = before ++ part ∧ after = part ++ after' := by
  rcases List.append_eq_append_iff.mp h with ⟨m, rfl, hm⟩ | ⟨m, rfl, hm⟩
  · exact ⟨m, rfl, hm⟩
  · cases m with
    | nil => exact ⟨[], by simp, by simpa using hm.symm⟩
    | cons c m =>
      have hpos := pointUnits_length_pos c.toNat
      rw [utf16_append, utf16_cons, List.length_append, List.length_append] at hle
      omega

/-- A piece of a text, from a unit on and so many units long. -/
structure Piece (text : List Char) (p n : Nat) (before part after : List Char) : Prop where
  split : text = before ++ (part ++ after)
  start : byteOfUnit (utf8 text) p = (utf8 before).length
  stop : byteOfUnit (utf8 text) (p + n) = (utf8 before).length + (utf8 part).length
  units : utf16 before = (utf16 text).take (p - 1)
  /-- A piece that ends inside a pair ends with the text, and is longer. -/
  inside : InsidePair text (p + n) → after = [] ∧ n < (utf16 part).length
  outside : ¬ InsidePair text (p + n) →
    utf16 part = ((utf16 text).drop (p - 1)).take n ∧ utf16 after = (utf16 text).drop (p - 1 + n)

theorem piece_exists {text : List Char} {p : Nat} (hp : 1 ≤ p) (hinside : ¬ InsidePair text p) (n : Nat) :
    ∃ before part after, Piece text p n before part after := by
  obtain ⟨before, rest, hcut⟩ := cut_exists text hp
  obtain ⟨before', after, hcut'⟩ := cut_exists text (Nat.le_add_right_of_le (k := n) hp)
  obtain ⟨hbefore, hrest⟩ := hcut.units hinside
  have hlength : (utf16 before).length = min (p - 1) (utf16 text).length := by
    rw [hbefore, List.length_take]
  obtain ⟨part, rfl, rfl⟩ := beginning_of_units (hcut.split.symm.trans hcut'.split) (by
    by_cases hend : InsidePair text (p + n)
    · have hwhole : text = before' := by rw [hcut'.split, hcut'.inside hend, List.append_nil]
      rw [← hwhole]
      omega
    · rw [(hcut'.units hend).1, List.length_take]
      omega)
  have hstop := hcut'.byte
  rw [utf8_append, List.length_append] at hstop
  refine ⟨before, part, after, hcut.split, hcut.byte, hstop, hbefore, fun hend => ?_, fun hend => ?_⟩
  · obtain rfl := hcut'.inside hend
    have hle := hend.le
    rw [List.append_nil] at hrest
    rw [hrest, List.length_drop]
    exact ⟨rfl, by omega⟩
  · obtain ⟨htake, hdrop⟩ := hcut'.units hend
    have hsum : p + n - 1 = p - 1 + n := by omega
    rw [hsum] at htake hdrop
    refine ⟨?_, hdrop⟩
    rw [utf16_append, hbefore, List.take_add] at htake
    exact List.append_cancel_left htake

section Piece
variable {text : List Char} {p n : Nat} {before part after : List Char}
  (h : Piece text p n before part after)
include h

theorem Piece.extract : extract (utf8 text) (byteOfUnit (utf8 text) p) (byteOfUnit (utf8 text) (p + n)) =
    utf8 part := by
  have hle : (utf8 before).length ≤ (utf8 before).length + (utf8 part).length := Nat.le_add_right _ _
  rw [h.start, h.stop, Text.extract, if_pos hle, h.split, utf8_append, utf8_append, List.drop_left,
    Nat.add_sub_cancel_left, List.take_left]

theorem Piece.remove : (utf8 text).take (byteOfUnit (utf8 text) p) ++
    (utf8 text).drop (byteOfUnit (utf8 text) (p + n)) = utf8 (before ++ after) := by
  rw [h.start, h.stop, h.split, utf8_append, utf8_append, List.take_left, ← List.append_assoc,
    List.drop_left' (List.length_append), utf8_append]

theorem Piece.length_le_iff : (utf16 part).length ≤ n ↔ ¬ InsidePair text (p + n) := by
  constructor
  · intro hle hin
    exact absurd (h.inside hin).2 (by omega)
  · intro hout
    rw [(h.outside hout).1, List.length_take]
    exact Nat.min_le_left _ _

/-- Where nothing of the text is left, there is no piece. -/
theorem Piece.part_nil (hle : (utf8 text).length ≤ byteOfUnit (utf8 text) p) : utf8 part = [] := by
  rw [h.start, h.split, utf8_append, utf8_append, List.length_append, List.length_append] at hle
  exact List.eq_nil_of_length_eq_zero (by omega)

theorem Piece.rest_eq (hnil : utf8 part = []) : utf8 (before ++ after) = utf8 text := by
  rw [h.split, utf8_append, utf8_append, utf8_append, hnil, List.nil_append]

theorem Piece.units_eq : (utf16 text).length =
    (utf16 (before ++ after)).length + (utf16 part).length := by
  conv_lhs => rw [h.split]
  simp only [utf16_append, List.length_append]
  omega

end Piece

/-! ### The five functions -/

variable {text : List Char} {p n : Nat}

theorem byteOfUnit_inside (hp : 1 ≤ p) (h : InsidePair text p) :
    byteOfUnit (utf8 text) p = (utf8 text).length := by
  obtain ⟨before, after, hcut⟩ := cut_exists text hp
  have hnil := hcut.inside h
  rw [hcut.byte, hcut.split, hnil, List.append_nil]

theorem byteOfUnit_le (hp : 1 ≤ p) : byteOfUnit (utf8 text) p ≤ (utf8 text).length := by
  obtain ⟨before, after, hcut⟩ := cut_exists text hp
  rw [hcut.byte, hcut.split, utf8_append, List.length_append]
  exact Nat.le_add_right _ _

theorem not_position_lt (hp : 1 ≤ p) : ¬ (p : Int) < 1 := by omega

/-- `CopyStr` returns the piece, or nothing where it would begin inside a pair. -/
theorem copyStr_eq (hp : 1 ≤ p) (n : Nat) :
    (InsidePair text p → copyStr (utf8 text) p (some n) = .ok []) ∧
    ∀ before part after, Piece text p n before part after →
      copyStr (utf8 text) p (some n) = .ok (utf8 part) := by
  have hn : ((some (n : Int)).any fun length => length < 0) = false := by simp
  unfold copyStr
  rw [if_neg (not_position_lt hp), hn, if_neg Bool.false_ne_true]
  dsimp only
  rw [Int.toNat_natCast, Int.toNat_natCast]
  refine ⟨fun hin => ?_, fun before part after hpiece => ?_⟩
  · rw [byteOfUnit_inside hp hin, if_pos (Nat.le_refl _)]
  · rw [hpiece.extract]
    split
    next hle => rw [hpiece.part_nil hle]
    · rfl

theorem substringText_eq (hp : 1 ≤ p) (hle : p ≤ (utf16 text).length + 1) (n : Nat) :
    (InsidePair text p → substringText (utf8 text) p (some n) = .ok []) ∧
    ∀ before part after, Piece text p n before part after →
      substringText (utf8 text) p (some n) = .ok (utf8 part) := by
  have hrange : ¬ ((p : Int) < 1 ∨ ((utf16Length (utf8 text) : Nat) : Int) + 1 < (p : Int)) := by
    rw [utf16Length_utf8]
    omega
  have hn : ¬ ((n : Nat) : Int) < 0 := by omega
  unfold substringText startByte
  rw [if_neg hrange]
  dsimp only
  rw [if_neg hn, if_neg (not_position_lt hp), Int.toNat_natCast, Int.toNat_natCast]
  refine ⟨fun hin => ?_, fun before part after hpiece => by rw [hpiece.extract]⟩
  have hstop : byteOfUnit (utf8 text) (p + n) ≤ (utf8 text).length := byteOfUnit_le (by omega)
  rw [byteOfUnit_inside hp hin, extract]
  split
  · rw [List.drop_length, List.take_nil]
  · rw [List.drop_length]

theorem delStr_eq (hp : 1 ≤ p) (hn : 1 ≤ n) :
    (InsidePair text p → delStr (utf8 text) p (some n) = .ok (utf8 text)) ∧
    ∀ before part after, Piece text p n before part after →
      delStr (utf8 text) p (some n) = .ok (utf8 (before ++ after)) := by
  have hany : ((some (n : Int)).any fun length => length < 1) = false := by simp; omega
  unfold delStr
  rw [if_neg (not_position_lt hp), hany, if_neg Bool.false_ne_true]
  dsimp only
  rw [Int.toNat_natCast, Int.toNat_natCast]
  refine ⟨fun hin => ?_, fun before part after hpiece => ?_⟩
  · rw [byteOfUnit_inside hp hin, if_pos (Nat.le_refl _)]
  · rw [hpiece.remove]
    split
    next hle => rw [hpiece.rest_eq (hpiece.part_nil hle)]
    · rfl

/-- The unit of a byte at which characters end is the one after them. -/
theorem unitOfByte_eq {before after : List Char} :
    unitOfByte (utf8 (before ++ after)) (utf8 before).length = (utf16 before).length + 1 := by
  have hmin : min (utf8 before).length (utf8 (before ++ after)).length = (utf8 before).length := by
    rw [utf8_append, List.length_append]
    omega
  rw [unitOfByte, hmin, utf8_append, List.take_left, utf16Length_utf8]

theorem byteOfUnit_past (h : (utf16 text).length < unit) : byteOfUnit (utf8 text) unit = (utf8 text).length := by
  obtain ⟨before, after, hcut⟩ := cut_exists text (Nat.one_le_of_lt h)
  have hdrop := (hcut.units fun hin => by have := hin.le; omega).2
  rw [List.drop_of_length_le (by omega)] at hdrop
  cases after with
  | nil => rw [hcut.byte, hcut.split, List.append_nil]
  | cons c after =>
    have hpos := pointUnits_length_pos c.toNat
    rw [utf16_cons, List.append_eq_nil_iff] at hdrop
    rw [hdrop.1] at hpos
    cases hpos

/-- Where a piece starts at the end of the text, all of it stays. -/
theorem removeText_end (hp : 1 ≤ p) (hend : byteOfUnit (utf8 text) p = (utf8 text).length) :
    removeText (utf8 text) p (some n) = utf8 text := by
  have hunit : unitOfByte (utf8 text) (utf8 text).length = (utf16 text).length + 1 := by
    simpa using @unitOfByte_eq text []
  have hpast : byteOfUnit (utf8 text) ((utf16 text).length + 1 + n) = (utf8 text).length :=
    byteOfUnit_past (by omega)
  unfold removeText startByte
  dsimp only
  rw [if_neg (not_position_lt hp), Int.toNat_natCast, Int.toNat_natCast, hend, hunit, hpast, ite_self,
    List.take_append_drop]

theorem removeText_eq (hp : 1 ≤ p) (n : Nat) :
    (InsidePair text p → removeText (utf8 text) p (some n) = utf8 text) ∧
    ∀ before part after, Piece text p n before part after →
      removeText (utf8 text) p (some n) = utf8 (before ++ after) := by
  refine ⟨fun hin => removeText_end hp (byteOfUnit_inside hp hin), fun before part after hpiece => ?_⟩
  rcases Nat.lt_or_ge (utf16 text).length p with hpast | hle
  · have hend := byteOfUnit_past hpast
    rw [removeText_end hp hend, hpiece.rest_eq (hpiece.part_nil (Nat.le_of_eq hend.symm))]
  · have hunits : (utf16 before).length + 1 = p := by
      rw [hpiece.units, List.length_take]
      omega
    have hunit : unitOfByte (utf8 text) (byteOfUnit (utf8 text) p) = p := by
      rw [hpiece.start]
      conv_lhs => rw [hpiece.split]
      rw [unitOfByte_eq, hunits]
    unfold removeText startByte
    dsimp only
    rw [if_neg (not_position_lt hp), Int.toNat_natCast, Int.toNat_natCast, hunit]
    split
    next hzero =>
      have hstop := hpiece.stop
      obtain rfl : n = 0 := by omega
      rw [Nat.add_zero, hpiece.start] at hstop
      rw [List.take_append_drop, hpiece.rest_eq (List.eq_nil_of_length_eq_zero (by omega))]
    · exact hpiece.remove

/-- `PadStr` of a text that is long enough returns its first piece. -/
theorem padStr_eq {fill : Option Bytes} (hfill : utf16Length (fill.getD (ascii " ")) = 1)
    (hle : n ≤ (utf16 text).length) {part after : List Char} (h : Piece text 1 n [] part after) :
    padStr (utf8 text) n fill = .ok (utf8 part) := by
  have hn : ¬ ((n : Nat) : Int) < 0 := by omega
  have hstop := h.stop
  rw [utf8_nil, List.length_nil, Nat.zero_add, Nat.add_comm] at hstop
  unfold padStr
  dsimp only
  rw [if_neg hn, if_neg (not_not.mpr hfill), Int.toNat_natCast, utf16Length_utf8, if_pos hle, hstop, h.split,
    List.nil_append, utf8_append, List.take_left]

/-- A piece from the first unit on has nothing before it. -/
theorem first_piece_exists (text : List Char) (n : Nat) : ∃ part after, Piece text 1 n [] part after := by
  have hone : ¬ InsidePair text 1 := by
    rintro ⟨before, c, after, -, -, hunit⟩
    omega
  obtain ⟨before, part, after, hpiece⟩ := piece_exists (Nat.le_refl 1) hone n
  cases before with
  | nil => exact ⟨part, after, hpiece⟩
  | cons c before =>
    have hpos := pointUnits_length_pos c.toNat
    have hunits := hpiece.units
    rw [utf16_cons, Nat.sub_self, List.take_zero, List.append_eq_nil_iff] at hunits
    rw [hunits.1] at hpos
    cases hpos

/-! ### Positions are units -/

/-- What is said of positions in a text: no function returns or removes more units than it
is told to, and where neither end falls inside a pair, it is just those. -/
structure UnitPositions (text : List Char) (p n : Nat) : Prop where
  copy : ∃ r, copyStr (utf8 text) p (some n) = .ok r ∧ utf16Length r ≤ n
  substring : p ≤ utf16Length (utf8 text) + 1 →
    ∃ r, substringText (utf8 text) p (some n) = .ok r ∧ utf16Length r ≤ n
  pad : ∀ fill : Option Bytes, utf16Length (fill.getD (ascii " ")) = 1 → n ≤ utf16Length (utf8 text) →
    ∃ r, padStr (utf8 text) n fill = .ok r ∧ utf16Length r ≤ n
  delete : 1 ≤ n → ∃ r, delStr (utf8 text) p (some n) = .ok r ∧
    utf16Length (utf8 text) ≤ utf16Length r + n
  remove : utf16Length (utf8 text) ≤ utf16Length (removeText (utf8 text) p (some n)) + n
  exactly : ¬ InsidePair text p → ¬ InsidePair text (p + n) → ∃ part rest : List Char,
    utf16 part = ((utf16 text).drop (p - 1)).take n ∧
    utf16 rest = (utf16 text).take (p - 1) ++ (utf16 text).drop (p - 1 + n) ∧
    copyStr (utf8 text) p (some n) = .ok (utf8 part) ∧
    (p ≤ utf16Length (utf8 text) + 1 → substringText (utf8 text) p (some n) = .ok (utf8 part)) ∧
    (p = 1 → ∀ fill : Option Bytes, utf16Length (fill.getD (ascii " ")) = 1 →
      n ≤ utf16Length (utf8 text) → padStr (utf8 text) n fill = .ok (utf8 part)) ∧
    (1 ≤ n → delStr (utf8 text) p (some n) = .ok (utf8 rest)) ∧
    removeText (utf8 text) p (some n) = utf8 rest
  joined : ∃ a b, copyStr (utf8 text) 1 (some n) = .ok a ∧
    copyStr (utf8 text) ((n : Int) + 1) none = .ok b ∧ a ++ b = utf8 text
  /-- A value cut to a field's length is accepted. -/
  checked : ∃ r, copyStr (utf8 text) 1 (some n) = .ok r ∧ checkLength r n = .ok ()

theorem copyStr_rest (hp : 1 ≤ p) :
    copyStr (utf8 text) p none = .ok ((utf8 text).drop (byteOfUnit (utf8 text) p)) := by
  unfold copyStr
  rw [if_neg (not_position_lt hp), Option.any_none, if_neg Bool.false_ne_true]
  dsimp only
  rw [Int.toNat_natCast]
  split
  next hle => rw [List.drop_of_length_le hle]
  · rfl

theorem checkLength_iff {s : Bytes} : checkLength s n = .ok () ↔ n = 0 ∨ utf16Length s ≤ n := by
  unfold checkLength
  by_cases hzero : n = 0
  · simp [hzero]
  · rw [if_neg hzero]
    by_cases hlong : n < utf16Length s
    · rw [if_pos hlong]
      simp [hzero, hlong]
    · rw [if_neg hlong]
      simp [Nat.not_lt.mp hlong]

/-- **Positions are units exactly when no end falls inside a pair**: the end of the piece
that starts at the position, unless the start does so too, and the end of the piece that
starts the text. -/
theorem unitPositions_iff (text : List Char) (p n : Nat) (hp : 1 ≤ p) :
    UnitPositions text p n ↔
      (InsidePair text (p + n) → InsidePair text p) ∧ ¬ InsidePair text (n + 1) := by
  obtain ⟨first, rest, hfirst⟩ := first_piece_exists text n
  have hcopied := (copyStr_eq (Nat.le_refl 1) n).2 [] first rest hfirst
  have hfill : utf16Length ((none : Option Bytes).getD (ascii " ")) = 1 := by decide
  rw [Nat.add_comm n 1, ← hfirst.length_le_iff]
  constructor
  · intro h
    constructor
    · intro hend
      by_contra hstart
      obtain ⟨before, part, after, hpiece⟩ := piece_exists hp hstart n
      obtain ⟨r, hr, hle⟩ := h.copy
      obtain rfl := Except.ok.inj (((copyStr_eq hp n).2 before part after hpiece).symm.trans hr)
      rw [utf16Length_utf8] at hle
      exact hpiece.length_le_iff.mp hle hend
    · rcases Nat.lt_or_ge (utf16 text).length n with hlt | hle
      · have hsum := hfirst.units_eq
        omega
      · obtain ⟨r, hr, hlength⟩ := h.pad none hfill (by rwa [utf16Length_utf8])
        obtain rfl := Except.ok.inj ((padStr_eq hfill hle hfirst).symm.trans hr)
        rwa [utf16Length_utf8] at hlength
  · rintro ⟨hends, hlength⟩
    -- what the functions return, and that the piece is not too long
    have hpiece : ∀ before part after, Piece text p n before part after →
        ¬ InsidePair text p → (utf16 part).length ≤ n := fun before part after hpiece hstart =>
      hpiece.length_le_iff.mpr fun hend => hstart (hends hend)
    refine ⟨?_, ?_, ?_, ?_, ?_, ?_, ?_, ?_⟩
    · by_cases hstart : InsidePair text p
      · exact ⟨[], (copyStr_eq hp n).1 hstart, Nat.zero_le _⟩
      · obtain ⟨before, part, after, h⟩ := piece_exists hp hstart n
        exact ⟨_, (copyStr_eq hp n).2 before part after h, by
          rw [utf16Length_utf8]
          exact hpiece before part after h hstart⟩
    · intro hrange
      rw [utf16Length_utf8] at hrange
      by_cases hstart : InsidePair text p
      · exact ⟨[], (substringText_eq hp hrange n).1 hstart, Nat.zero_le _⟩
      · obtain ⟨before, part, after, h⟩ := piece_exists hp hstart n
        exact ⟨_, (substringText_eq hp hrange n).2 before part after h, by
          rw [utf16Length_utf8]
          exact hpiece before part after h hstart⟩
    · intro fill hfill hle
      rw [utf16Length_utf8] at hle
      exact ⟨_, padStr_eq hfill hle hfirst, by rwa [utf16Length_utf8]⟩
    · intro hn
      by_cases hstart : InsidePair text p
      · exact ⟨_, (delStr_eq hp hn).1 hstart, Nat.le_add_right _ _⟩
      · obtain ⟨before, part, after, h⟩ := piece_exists hp hstart n
        refine ⟨_, (delStr_eq hp hn).2 before part after h, ?_⟩
        rw [utf16Length_utf8, utf16Length_utf8, h.units_eq]
        exact Nat.add_le_add_left (hpiece before part after h hstart) _
    · by_cases hstart : InsidePair text p
      · rw [(removeText_eq hp n).1 hstart]
        exact Nat.le_add_right _ _
      · obtain ⟨before, part, after, h⟩ := piece_exists hp hstart n
        rw [(removeText_eq hp n).2 before part after h, utf16Length_utf8, utf16Length_utf8, h.units_eq]
        exact Nat.add_le_add_left (hpiece before part after h hstart) _
    · intro hstart hend
      obtain ⟨before, part, after, h⟩ := piece_exists hp hstart n
      obtain ⟨hpart, hafter⟩ := h.outside hend
      refine ⟨part, before ++ after, hpart, by rw [utf16_append, h.units, hafter],
        (copyStr_eq hp n).2 before part after h, fun hrange => ?_, ?_, fun hn => ?_,
        (removeText_eq hp n).2 before part after h⟩
      · rw [utf16Length_utf8] at hrange
        exact (substringText_eq hp hrange n).2 before part after h
      · rintro rfl fill hfill hle
        rw [utf16Length_utf8] at hle
        have hsame : utf8 part = utf8 first := h.extract.symm.trans hfirst.extract
        rw [hsame]
        exact padStr_eq hfill hle hfirst
      · exact (delStr_eq hp hn).2 before part after h
    · refine ⟨_, _, hcopied, copyStr_rest (p := n + 1) (Nat.le_add_left 1 n), ?_⟩
      have hstop := hfirst.stop
      rw [utf8_nil, List.length_nil, Nat.zero_add, Nat.add_comm] at hstop
      rw [hstop, hfirst.split, List.nil_append, utf8_append, List.drop_left]
    · exact ⟨_, hcopied, checkLength_iff.mpr (.inr (by rwa [utf16Length_utf8]))⟩

/-- Where the text stays in the basic plane, no position falls inside a pair. -/
theorem unitPositions_of_basic : UnitPositions ['a', 'ä', 'b'] 2 1 := by
  have hbasic : ∀ unit, ¬ InsidePair ['a', 'ä', 'b'] unit := by
    rintro unit ⟨before, c, after, hsplit, hc, -⟩
    have hmem : c ∈ ['a', 'ä', 'b'] := by
      rw [hsplit]
      simp
    revert hc
    have hall : ∀ d ∈ ['a', 'ä', 'b'], ¬ 0x10000 ≤ d.toNat := by
      intro d hd
      simp only [List.mem_cons, List.not_mem_nil, or_false] at hd
      rcases hd with rfl | rfl | rfl
      · decide
      · decide
      · decide
    exact hall c hmem
  exact (unitPositions_iff ['a', 'ä', 'b'] 2 1 (by decide)).mpr
    ⟨fun h => absurd h (hbasic _), hbasic _⟩

/-- A text that starts with a character outside the basic plane, cut to one unit, stays as it
is. -/
theorem copyStr_of_pair :
    copyStr (utf8 ['😀', 'a']) 1 (some 1) = .ok (utf8 ['😀', 'a']) ∧
      utf16Length (utf8 ['😀', 'a']) = 3 ∧ ¬ UnitPositions ['😀', 'a'] 1 1 := by
  have hcopy : copyStr (utf8 ['😀', 'a']) 1 (some 1) = .ok (utf8 ['😀', 'a']) := by decide +kernel
  have hlength : utf16Length (utf8 ['😀', 'a']) = 3 := by decide +kernel
  refine ⟨hcopy, hlength, fun h => ?_⟩
  obtain ⟨r, hr, hle⟩ := h.copy
  obtain rfl := Except.ok.inj (hcopy.symm.trans hr)
  omega

end Agiru.Text
