import Agiru.Library.Strip
import Agiru.Storage.TextOrder

/-! `IncStr`, which adds to the last number of a text.

The digits are read as a 64-bit number before anything is added, and the sum is looked at only when it is made: the
text is raised, or refused, as it should be exactly where neither leaves the 64 bits (`incStr_iff`). Where two
additions return, they are one. -/
namespace Agiru.Text
open Bytes

/-- How a run of `IncStr` ends without a text: in an AL error, in a `std::out_of_range`, or in a signed overflow.
-/
inductive Fault
  | refused (message : Bytes)
  | outOfRange
  | overflow
  deriving Repr, DecidableEq

/-- The digits with the increment added, as wide as they were. -/
def raised (digits : Bytes) (increment : Int64) : Except Fault Bytes :=
  if 2 ^ 63 ≤ digitsValue digits then .error .outOfRange
  else
    let value := (digitsValue digits : Int) + increment.toInt
    if 2 ^ 63 ≤ value then .error .overflow
    else if value < 0 then .error (.refused (ascii "IncStr: the result must be zero or positive"))
    else .ok ((natText value.toNat).leftpad digits.length Ch.zero)

/-- The text up to its last digit. -/
def uptoLast (text : Bytes) : Bytes := text.rdropWhile (!isDigit ·)

/-- The digits that end in the last one. -/
def lastRun (text : Bytes) : Bytes := (uptoLast text).rtakeWhile isDigit

/-- `IncStr`. -/
def incStr (text : Bytes) (increment : Int64) : Except Fault Bytes :=
  if uptoLast text = [] then .ok []
  else do
    let grown ← raised (lastRun text) increment
    return (uptoLast text).rdropWhile isDigit ++ grown ++ text.rtakeWhile (!isDigit ·)

/-- The last run of digits of a text, with what stands before it and behind it. -/
structure LastRun (text before digits after : Bytes) : Prop where
  split : text = before ++ digits ++ after
  run : Digits digits
  nonempty : digits ≠ []
  ahead : ∀ c, before.getLast? = some c → isDigit c = false
  behind : ∀ c ∈ after, isDigit c = false

/-- The last number of the text becomes the sum, as wide at least as it was, with all else unchanged; a sum that is
negative, or no 64-bit number, is refused. -/
def Raises (text : Bytes) (increment : Int64) : Prop :=
  ∀ before digits after, LastRun text before digits after →
    let sum := (digitsValue digits : Int) + increment.toInt
    if 0 ≤ sum ∧ sum < 2 ^ 63 then
      incStr text increment = .ok (before ++ (natText sum.toNat).leftpad digits.length Ch.zero ++ after)
    else ∃ message, incStr text increment = .error (.refused message)

/-! ### The last run -/

variable {text before digits after : Bytes}

theorem LastRun.uptoLast (h : LastRun text before digits after) : uptoLast text = before ++ digits := by
  rw [Text.uptoLast, h.split, Strip.rdropWhile_append]
  · intro c hc
    rw [List.getLast?_append_of_ne_nil _ h.nonempty] at hc
    rw [h.run c (List.mem_of_getLast? hc)]
    rfl
  · intro c hc
    rw [h.behind c hc]
    rfl

theorem LastRun.rest (h : LastRun text before digits after) : text.rtakeWhile (!isDigit ·) = after := by
  have hsplit := @List.rdropWhile_append_rtakeWhile _ (!isDigit ·) text
  rw [show text.rdropWhile (!isDigit ·) = before ++ digits from h.uptoLast] at hsplit
  exact List.append_cancel_left (hsplit.trans h.split)

theorem LastRun.lastRun (h : LastRun text before digits after) : lastRun text = digits := by
  rw [Text.lastRun, h.uptoLast, Strip.rtakeWhile_append h.ahead h.run]

/-- Where the last run stands, `IncStr` raises it. -/
theorem LastRun.incStr (h : LastRun text before digits after) (increment : Int64) :
    incStr text increment = raised digits increment >>= fun grown => .ok (before ++ grown ++ after) := by
  rw [Text.incStr, h.lastRun, h.uptoLast, Strip.rdropWhile_append h.ahead h.run, h.rest,
    if_neg (List.append_ne_nil_of_right_ne_nil _ h.nonempty)]
  rfl

theorem LastRun.incStr_ok (h : LastRun text before digits after) {increment : Int64} {out : Bytes}
    (hout : Text.incStr text increment = .ok out) :
    ∃ grown, raised digits increment = .ok grown ∧ before ++ grown ++ after = out := by
  rw [h.incStr] at hout
  obtain ⟨grown, hgrown, heq⟩ := Fallible.of_bind hout
  exact ⟨grown, hgrown, Except.ok.inj heq⟩

theorem LastRun.raised_error (h : LastRun text before digits after) {increment : Int64} {fault : Fault}
    (hfault : Text.incStr text increment = .error fault) : raised digits increment = .error fault := by
  rw [h.incStr] at hfault
  cases hraised : raised digits increment with
  | error found =>
    rw [hraised] at hfault
    exact hfault
  | ok grown =>
    rw [hraised] at hfault
    cases hfault

/-- A text that has a digit has a last run. -/
theorem lastRun_exists (h : uptoLast text ≠ []) : ∃ before digits after, LastRun text before digits after := by
  have hlast : ¬ (!isDigit ((uptoLast text).getLast h)) = true := List.rdropWhile_last_not _ text h
  rw [Bool.not_eq_true', Bool.not_eq_false] at hlast
  refine ⟨(uptoLast text).rdropWhile isDigit, lastRun text, text.rtakeWhile (!isDigit ·), ?_, ?_, ?_, ?_, ?_⟩
  · rw [lastRun, List.rdropWhile_append_rtakeWhile]
    exact List.rdropWhile_append_rtakeWhile.symm
  · exact fun c hc => List.mem_rtakeWhile_imp hc
  · rw [lastRun, Ne, List.rtakeWhile_eq_nil_iff]
    exact fun hno => hno h hlast
  · intro c hc
    have hne : (uptoLast text).rdropWhile isDigit ≠ [] := by
      intro hnil
      rw [hnil] at hc
      cases hc
    rw [List.getLast?_eq_some_getLast hne] at hc
    rw [← Option.some.inj hc]
    exact Bool.eq_false_iff.mpr (List.rdropWhile_last_not isDigit _ hne)
  · intro c hc
    simpa using List.mem_rtakeWhile_imp hc

/-! ### The sum -/

theorem raised_iff (digits : Bytes) (increment : Int64) (grown : Bytes) :
    raised digits increment = .ok grown ↔ digitsValue digits < 2 ^ 63 ∧
      (digitsValue digits : Int) + increment.toInt < 2 ^ 63 ∧ 0 ≤ (digitsValue digits : Int) + increment.toInt ∧
      grown = (natText ((digitsValue digits : Int) + increment.toInt).toNat).leftpad digits.length Ch.zero := by
  by_cases hrange : 2 ^ 63 ≤ digitsValue digits
  · rw [raised, if_pos hrange]
    exact ⟨nofun, fun h => absurd hrange (Nat.not_le.mpr h.1)⟩
  simp only [raised, if_neg hrange]
  by_cases hover : 2 ^ 63 ≤ (digitsValue digits : Int) + increment.toInt
  · rw [if_pos hover]
    exact ⟨nofun, fun h => absurd hover (Int.not_le.mpr h.2.1)⟩
  rw [if_neg hover]
  by_cases hnegative : (digitsValue digits : Int) + increment.toInt < 0
  · rw [if_pos hnegative]
    exact ⟨nofun, fun h => absurd hnegative (Int.not_lt.mpr h.2.2.1)⟩
  · rw [if_neg hnegative, Except.ok.injEq]
    exact ⟨fun h => ⟨Nat.not_le.mp hrange, Int.not_le.mp hover, Int.not_lt.mp hnegative, h.symm⟩, fun h => h.2.2.2.symm⟩

theorem raised_refused_iff (digits : Bytes) (increment : Int64) :
    (∃ message, raised digits increment = .error (.refused message)) ↔
      digitsValue digits < 2 ^ 63 ∧ (digitsValue digits : Int) + increment.toInt < 0 := by
  by_cases hrange : 2 ^ 63 ≤ digitsValue digits
  · rw [raised, if_pos hrange]
    exact ⟨nofun, fun h => absurd hrange (Nat.not_le.mpr h.1)⟩
  simp only [raised, if_neg hrange]
  by_cases hnegative : (digitsValue digits : Int) + increment.toInt < 0
  · rw [if_neg (by omega), if_pos hnegative]
    exact ⟨fun _ => ⟨Nat.not_le.mp hrange, hnegative⟩, fun _ => ⟨_, rfl⟩⟩
  · rw [if_neg hnegative]
    refine ⟨fun ⟨message, h⟩ => ?_, fun h => absurd h.2 hnegative⟩
    split at h <;> cases h

/-- A number behind zeros is as long as it is wide, and the same number. -/
theorem leftpad_digits (width n : Nat) : Digits ((natText n).leftpad width Ch.zero) :=
  (digits_zeros _).append fun _ hc => isDigit_natText hc

theorem leftpad_value (width n : Nat) : digitsValue ((natText n).leftpad width Ch.zero) = n := by
  rw [List.leftpad, digitsValue_zeros_append, digitsValue_natText]

theorem leftpad_ne_nil (width n : Nat) : (natText n).leftpad width Ch.zero ≠ [] :=
  List.append_ne_nil_of_right_ne_nil _ (natText_ne_nil n)

/-- The width that a smaller number has taken is no more than a larger one takes. -/
theorem leftpad_leftpad {m n : Nat} (h : m ≤ n) (width : Nat) :
    (natText n).leftpad ((natText m).leftpad width Ch.zero).length Ch.zero =
        (natText n).leftpad width Ch.zero := by
  have hlength := Storage.natText_length_le h
  rw [List.leftpad, List.leftpad, List.leftpad, List.length_append, List.length_replicate]
  congr 2
  omega

/-- **When the last number is raised as it should be**: while it is a 64-bit number, and so is the sum, or the sum
is negative. Two additions that return are one. -/
theorem incStr_iff (text : Bytes) (a b c : Int64) :
    (Raises text a ↔
        digitsValue (lastRun text) < 2 ^ 63 ∧ (digitsValue (lastRun text) : Int) + a.toInt < 2 ^ 63) ∧
      (0 ≤ a.toInt → 0 ≤ b.toInt → c.toInt = a.toInt + b.toInt → ∀ once twice whole,
        incStr text a = .ok once → incStr once b = .ok twice → incStr text c = .ok whole → twice = whole) := by
  refine ⟨⟨fun h => ?_, fun h before digits after hrun => ?_⟩, fun _ hb hc once twice whole honce htwice hwhole => ?_⟩
  · by_cases hnil : uptoLast text = []
    · have := a.toInt_lt
      simpa [lastRun, hnil] using this
    · obtain ⟨before, digits, after, hrun⟩ := lastRun_exists hnil
      have hraises := h before digits after hrun
      rw [hrun.lastRun]
      by_cases hsum : 0 ≤ (digitsValue digits : Int) + a.toInt ∧ (digitsValue digits : Int) + a.toInt < 2 ^ 63
      · simp only [if_pos hsum] at hraises
        obtain ⟨grown, hgrown, -⟩ := hrun.incStr_ok hraises
        have := (raised_iff digits a grown).mp hgrown
        exact ⟨this.1, this.2.1⟩
      · simp only [if_neg hsum] at hraises
        obtain ⟨message, hmessage⟩ := hraises
        have := (raised_refused_iff digits a).mp ⟨message, hrun.raised_error hmessage⟩
        exact ⟨this.1, by omega⟩
  · rw [hrun.lastRun] at h
    by_cases hsum : 0 ≤ (digitsValue digits : Int) + a.toInt ∧ (digitsValue digits : Int) + a.toInt < 2 ^ 63
    · simp only [if_pos hsum]
      rw [hrun.incStr, (raised_iff digits a _).mpr ⟨h.1, h.2, hsum.1, rfl⟩]
      rfl
    · simp only [if_neg hsum]
      obtain ⟨message, hmessage⟩ := (raised_refused_iff digits a).mpr ⟨h.1, by omega⟩
      exact ⟨message, by rw [hrun.incStr, hmessage]; rfl⟩
  · by_cases hnil : uptoLast text = []
    · rw [incStr, if_pos hnil] at honce hwhole
      cases honce
      cases hwhole
      cases htwice
      rfl
    · obtain ⟨before, digits, after, hrun⟩ := lastRun_exists hnil
      obtain ⟨grown, hgrown, rfl⟩ := hrun.incStr_ok honce
      obtain ⟨more, hmore, rfl⟩ := hrun.incStr_ok hwhole
      obtain ⟨-, -, hpositive, rfl⟩ := (raised_iff digits a grown).mp hgrown
      obtain ⟨-, -, -, rfl⟩ := (raised_iff digits c more).mp hmore
      -- the raised number is the last run of the raised text
      have hagain : LastRun _ before _ after :=
        ⟨rfl, leftpad_digits digits.length ((digitsValue digits : Int) + a.toInt).toNat, leftpad_ne_nil _ _, hrun.ahead,
          hrun.behind⟩
      obtain ⟨grown, hgrown, rfl⟩ := hagain.incStr_ok htwice
      obtain ⟨-, -, -, rfl⟩ := (raised_iff _ b grown).mp hgrown
      rw [leftpad_value, Int.toNat_of_nonneg hpositive, leftpad_leftpad (by omega), hc, Int.add_assoc]

/-- A number that is none of 64 bits leaves `IncStr` as a `std::out_of_range`, though the sum is one. -/
theorem incStr_out_of_range : ¬ ∀ text increment, Raises text increment := by
  intro h
  have hrun : LastRun (ascii "9223372036854775808") [] (ascii "9223372036854775808") [] :=
    ⟨by decide, List.all_eq_true.mp (by decide), by decide, nofun, nofun⟩
  have hout := h _ (-1) _ _ _ hrun
  rw [hrun.incStr] at hout
  have hraised : raised (ascii "9223372036854775808") (-1) = .error .outOfRange := by decide
  rw [hraised] at hout
  have hsum : 0 ≤ (digitsValue (ascii "9223372036854775808") : Int) + (-1 : Int64).toInt ∧
      (digitsValue (ascii "9223372036854775808") : Int) + (-1 : Int64).toInt < 2 ^ 63 := by decide
  simp only [if_pos hsum] at hout
  cases hout

end Agiru.Text
