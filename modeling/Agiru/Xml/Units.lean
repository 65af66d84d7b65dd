import Agiru.Xml.Markup

/-! The units of a document from an offset on, and what the scan's readers find there. -/
namespace Agiru.Xml
open Bytes

variable {turns : Nat}

namespace MarkupBytes
variable (source : MarkupBytes) (bytes : Bytes)

/-- The characters of the whole units from an offset on. -/
def units (offset : Nat) : Bytes :=
  (List.range ((bytes.length - offset) / source.width)).map fun k =>
    source.characterAt bytes (offset + k * source.width)

variable {source bytes} {offset : Nat} {c : UInt8} {text rest before : Bytes}

theorem units_of_le (h : offset + source.width ≤ bytes.length) :
    source.units bytes offset = source.characterAt bytes offset :: source.units bytes (offset + source.width) := by
  have hpositive := source.positive
  have hcount : (bytes.length - offset) / source.width =
      (bytes.length - (offset + source.width)) / source.width + 1 := by
    rw [← Nat.sub_sub, Nat.div_eq_sub_div hpositive (by omega)]
  rw [units, hcount, List.range_succ_eq_map, List.map_cons, List.map_map, Nat.zero_mul, Nat.add_zero]
  congr 1
  apply List.map_congr_left
  intro k _
  show source.characterAt bytes (offset + (k + 1) * source.width) = _
  congr 1
  ring

theorem units_of_lt (h : bytes.length < offset + source.width) : source.units bytes offset = [] := by
  have hless : (bytes.length - offset) / source.width = 0 := by
    rw [Nat.div_eq_zero_iff]
    omega
  rw [units, hless]
  rfl

/-- What stands first in the units stands at the offset. -/
theorem units_cons (h : source.units bytes offset = c :: rest) :
    source.characterAt bytes offset = c ∧ source.units bytes (offset + source.width) = rest ∧
      offset + source.width ≤ bytes.length := by
  by_cases hle : offset + source.width ≤ bytes.length
  · rw [units_of_le hle] at h
    obtain ⟨hc, hrest⟩ := List.cons.inj h
    exact ⟨hc, hrest, hle⟩
  · rw [units_of_lt (Nat.lt_of_not_le hle)] at h
    cases h

theorem characterAt_nil (h : source.units bytes offset = []) : source.characterAt bytes offset = 0 := by
  by_cases hle : offset + source.width ≤ bytes.length
  · rw [units_of_le hle] at h
    cases h
  · rw [characterAt, if_pos (Nat.lt_of_not_le hle)]

theorem characterAt_head : source.characterAt bytes offset = (source.units bytes offset).headD 0 := by
  cases h : source.units bytes offset with
  | nil => exact characterAt_nil h
  | cons c rest => exact (units_cons h).1

theorem units_append (hstart : offset ≤ bytes.length) (h : source.units bytes offset = before ++ rest) :
    source.units bytes (offset + before.length * source.width) = rest ∧
      offset + before.length * source.width ≤ bytes.length := by
  induction before generalizing offset with
  | nil => simpa using ⟨h, hstart⟩
  | cons c before ih =>
    obtain ⟨-, hrest, hle⟩ := units_cons h
    have := ih hle hrest
    rw [List.length_cons, show offset + (before.length + 1) * source.width =
      offset + source.width + before.length * source.width by ring]
    exact this

/-- A text without NUL stands where the units begin with it. -/
theorem stands_iff (hnul : (0 : UInt8) ∉ text) :
    source.stands bytes offset text = true ↔ text <+: source.units bytes offset := by
  induction text generalizing offset with
  | nil => simp [stands]
  | cons c text ih =>
    obtain ⟨hc, hnul⟩ := not_or.mp (mt List.mem_cons.mpr hnul)
    rw [stands, Bool.and_eq_true, decide_eq_true_eq, ih hnul]
    cases h : source.units bytes offset with
    | nil =>
      rw [characterAt_nil h]
      exact iff_of_false (fun hand => hc hand.1) (by simp)
    | cons d rest =>
      obtain ⟨hd, hrest, -⟩ := units_cons h
      rw [hd, hrest, List.cons_prefix_cons, eq_comm]

theorem length_units_le (source : MarkupBytes) (bytes : Bytes) (offset : Nat) :
    (source.units bytes offset).length ≤ bytes.length := by
  rw [units, List.length_map, List.length_range]
  exact Nat.le_trans (Nat.div_le_self _ _) (Nat.sub_le _ _)

theorem afterFrom_eq {terminal : Bytes} (hnul : (0 : UInt8) ∉ terminal) (hne : terminal ≠ [])
    (h : source.units bytes offset = before ++ terminal ++ rest)
    (hcut : Occurs.cut terminal (before ++ terminal ++ rest) = some (before, rest))
    (hturns : before.length < turns) :
    source.afterFrom bytes terminal turns offset = offset + (before.length + terminal.length) * source.width := by
  have hpositive := source.positive
  induction turns generalizing offset before with
  | zero => exact absurd hturns (Nat.not_lt_zero _)
  | succ turns ih =>
    obtain ⟨c, tail, htail⟩ : ∃ c tail, before ++ terminal ++ rest = c :: tail :=
      List.exists_cons_of_ne_nil (by simp [hne])
    obtain ⟨-, hunits, hle⟩ := units_cons (h.trans htail)
    rw [afterFrom, if_pos (by omega)]
    cases before with
    | nil =>
      rw [if_pos ((stands_iff hnul).mpr (by rw [h]; simp)), List.length_nil, Nat.zero_add]
    | cons d before =>
      obtain ⟨rfl, rfl⟩ := List.cons.inj htail
      rw [htail, Occurs.cut] at hcut
      split at hcut
      · cases (Prod.mk.inj (Option.some.inj hcut)).1
      · rename_i hbegins
        obtain ⟨⟨before', rest'⟩, hcut, heq⟩ := Option.map_eq_some_iff.mp hcut
        cases heq
        have hnot : ¬ source.stands bytes offset terminal = true := by
          rw [stands_iff hnul, h, htail]
          exact fun hbegun => hbegins (List.isPrefixOf_iff_prefix.mpr hbegun)
        rw [if_neg hnot, ih hunits hcut (Nat.lt_of_succ_lt_succ hturns), List.length_cons]
        ring

/-- Behind the first terminal. -/
theorem after_eq {terminal : Bytes} (hnul : (0 : UInt8) ∉ terminal) (hne : terminal ≠ [])
    (h : source.units bytes offset = before ++ terminal ++ rest)
    (hcut : Occurs.cut terminal (before ++ terminal ++ rest) = some (before, rest)) :
    source.after bytes offset terminal = offset + (before.length + terminal.length) * source.width := by
  have hmany := length_units_le source bytes offset
  rw [h, List.length_append, List.length_append] at hmany
  exact afterFrom_eq hnul hne h hcut (by omega)

end MarkupBytes

/-! ### Spaces, literals and names -/

section
open MarkupBytes
variable {source : MarkupBytes} {bytes : Bytes} {offset : Nat} {text rest : Bytes}

/-- What follows spaces. -/
def NoSpace (rest : Bytes) : Prop := xmlSpace (rest.headD 0) = false

theorem skipSpaceFrom_eq (h : source.units bytes offset = text ++ rest)
    (hspaces : ∀ c ∈ text, xmlSpace c = true) (hrest : NoSpace rest) (hturns : text.length < turns) :
    skipSpaceFrom source bytes turns offset = offset + text.length * source.width := by
  induction turns generalizing offset text with
  | zero => exact absurd hturns (Nat.not_lt_zero _)
  | succ turns ih =>
    rw [skipSpaceFrom, characterAt_head, h]
    cases text with
    | nil =>
      rw [List.nil_append, hrest, if_neg Bool.false_ne_true]
      simp
    | cons c text =>
      obtain ⟨hc, hspaces⟩ := List.forall_mem_cons.mp hspaces
      obtain ⟨-, hunits, -⟩ := units_cons h
      rw [List.cons_append, List.headD_cons, hc, if_pos rfl,
        ih hunits hspaces (Nat.lt_of_succ_lt_succ hturns), List.length_cons]
      ring

theorem skipSpace_eq (h : source.units bytes offset = text ++ rest) (hspaces : ∀ c ∈ text, xmlSpace c = true)
    (hrest : NoSpace rest) : skipSpace source bytes offset = offset + text.length * source.width := by
  have hmany := length_units_le source bytes offset
  rw [h, List.length_append] at hmany
  exact skipSpaceFrom_eq h hspaces hrest (by omega)

theorem nameEndFrom_eq {d : UInt8} (h : source.units bytes offset = text ++ d :: rest)
    (hname : ∀ c ∈ text, inName c = true) (hd : inName d = false) (hturns : text.length < turns) :
    nameEndFrom source bytes turns offset = offset + text.length * source.width := by
  have hpositive := source.positive
  induction turns generalizing offset text with
  | zero => exact absurd hturns (Nat.not_lt_zero _)
  | succ turns ih =>
    rw [nameEndFrom]
    cases text with
    | nil =>
      rw [(units_cons h).1, hd, Bool.and_false, if_neg Bool.false_ne_true]
      simp
    | cons c text =>
      obtain ⟨hc, hname⟩ := List.forall_mem_cons.mp hname
      obtain ⟨hchar, hunits, hle⟩ := units_cons h
      rw [hchar, hc, if_pos (by simp; omega), ih hunits hname (Nat.lt_of_succ_lt_succ hturns), List.length_cons]
      ring

theorem closingFrom_eq {quote : UInt8} (h : source.units bytes offset = text ++ quote :: rest)
    (hbody : quote ∉ text) (hturns : text.length < turns) :
    closingFrom source bytes quote turns offset = some (offset + (text.length + 1) * source.width) := by
  have hpositive := source.positive
  induction turns generalizing offset text with
  | zero => exact absurd hturns (Nat.not_lt_zero _)
  | succ turns ih =>
    cases text with
    | nil =>
      obtain ⟨hchar, -, hle⟩ := units_cons h
      rw [closingFrom, if_pos (by omega), if_pos hchar]
      simp
    | cons c text =>
      obtain ⟨hchar, hunits, hle⟩ := units_cons h
      obtain ⟨hc, hbody⟩ := not_or.mp (mt List.mem_cons.mpr hbody)
      rw [closingFrom, if_pos (by omega), hchar, if_neg (Ne.symm hc), ih hunits hbody (Nat.lt_of_succ_lt_succ hturns),
        List.length_cons]
      congr 1
      ring

/-- Behind a literal. -/
theorem skipQuoted_eq {quote : UInt8} (h : source.units bytes offset = quote :: (text ++ quote :: rest))
    (hquote : isQuote quote = true) (hbody : quote ∉ text) :
    skipQuoted source bytes offset = some (offset + (text.length + 2) * source.width) := by
  obtain ⟨hchar, hunits, -⟩ := units_cons h
  have hmany := length_units_le source bytes (offset + source.width)
  rw [hunits, List.length_append] at hmany
  rw [skipQuoted, hchar]
  rw [if_pos hquote, closingFrom_eq hunits hbody (by omega)]
  congr 1
  ring

end
end Agiru.Xml
