import Agiru.Storage.Identities

/-! The texts of GUIDs.

`FromText` takes the first sixteen bytes it comes to and looks at nothing behind them; it skips hyphens before the
first byte as it does between two (`guid_texts_exact_iff`). -/
namespace Agiru.Storage
open Bytes

/-- The two digits of a byte. -/
def Pair (b high low : UInt8) : Prop :=
  ∃ h l, digitIn 16 high = some h ∧ digitIn 16 low = some l ∧ b = UInt8.ofNat (h * 16 + l)

/-- The digits of some bytes in order, with any hyphens between two of them. -/
inductive Spelled : Bytes → Bytes → Prop
  | last {b high low : UInt8} (hpair : Pair b high low) : Spelled [b] [high, low]
  | byte {b high low : UInt8} {bytes text : Bytes} (hpair : Pair b high low) (hyphens : Nat)
    (h : Spelled bytes text) : Spelled (b :: bytes) (high :: low :: (List.replicate hyphens Ch.minus ++ text))

/-- `FromText` reads the GUID whose digits stand in the text, or between its braces, and no other text. -/
def ReadExactly (text : Bytes) : Prop := ∀ g : Guid, guidFromText text = .ok g ↔ Spelled g.bytes (unbraced text)

/-- Sixteen bytes stand in a text behind hyphens, or before anything else. -/
def Stray (text : Bytes) : Prop :=
  ∃ bytes hyphens spelled rest, bytes.length = 16 ∧ Spelled bytes spelled ∧
    unbraced text = List.replicate hyphens Ch.minus ++ (spelled ++ rest) ∧ (hyphens ≠ 0 ∨ rest ≠ [])

/-! ### Spellings -/

theorem Pair.digits {b high low : UInt8} (h : Pair b high low) : high ≠ Ch.minus ∧ low ≠ Ch.minus := by
  obtain ⟨_, _, hhigh, hlow, -⟩ := h
  have hminus : digitIn 16 Ch.minus = none := by decide
  refine ⟨fun heq => ?_, fun heq => ?_⟩
  · rw [heq, hminus] at hhigh
    cases hhigh
  · rw [heq, hminus] at hlow
    cases hlow

section
variable {bytes text spelled rest : Bytes}

theorem Spelled.head (h : Spelled bytes text) : ∃ c d rest, text = c :: d :: rest ∧ c ≠ Ch.minus := by
  cases h with
  | last hpair | byte hpair => exact ⟨_, _, _, rfl, hpair.digits.1⟩

theorem Spelled.getLast (h : Spelled bytes text) : ∃ c, text.getLast? = some c ∧ c ≠ Ch.minus := by
  induction h with
  | last hpair => exact ⟨_, rfl, hpair.digits.2⟩
  | @byte _ _ _ _ text _ _ hspelled ih =>
    obtain ⟨c, hlast, hc⟩ := ih
    obtain ⟨first, second, rest, rfl, -⟩ := hspelled.head
    refine ⟨c, ?_, hc⟩
    rw [List.getLast?_cons_cons, List.getLast?_cons_of_ne_nil
        (List.append_ne_nil_of_right_ne_nil _ (List.cons_ne_nil _ _)),
      List.getLast?_append_of_ne_nil _ (List.cons_ne_nil _ _)]
    exact hlast

/-- Two digits for each byte. -/
theorem Spelled.count (h : Spelled bytes text) : text.countP (· ≠ Ch.minus) = 2 * bytes.length := by
  induction h with
  | last hpair => simp [hpair.digits.1, hpair.digits.2]
  | byte hpair hyphens _ ih =>
    simp only [List.countP_cons, List.countP_append, List.countP_replicate, ih, hpair.digits.1, hpair.digits.2,
      List.length_cons, ne_eq, not_true_eq_false, not_false_eq_true, decide_true, decide_false, if_true,
      Bool.false_eq_true, if_false]
    omega

/-- Nothing stands behind the last digit of as many bytes. -/
theorem Spelled.rest_nil {more : Bytes} (h : Spelled bytes spelled) (hlonger : Spelled more (spelled ++ rest))
    (hlength : more.length = bytes.length) : rest = [] := by
  have hcount := hlonger.count
  rw [List.countP_append, h.count, hlength] at hcount
  by_contra hne
  obtain ⟨c, hlast, hc⟩ := hlonger.getLast
  rw [List.getLast?_append_of_ne_nil _ hne] at hlast
  have hpos : 0 < rest.countP (· ≠ Ch.minus) :=
    List.countP_pos_iff.mpr ⟨c, List.mem_of_getLast? hlast, by simpa using hc⟩
  omega

end

/-! ### The loop -/

theorem hexBytes_hyphens (hyphens cursor wanted : Nat) (text : Bytes) (hne : text ≠ []) :
    ∃ cursor', hexBytes cursor (List.replicate hyphens Ch.minus ++ text) (wanted + 1) =
      hexBytes cursor' text (wanted + 1) := by
  induction hyphens generalizing cursor with
  | zero => exact ⟨cursor, rfl⟩
  | succ hyphens ih =>
    obtain ⟨cursor', hread⟩ := ih (cursor + 1)
    refine ⟨cursor', ?_⟩
    obtain ⟨c, rest, hrest⟩ := List.exists_cons_of_ne_nil
      (List.append_ne_nil_of_right_ne_nil (List.replicate hyphens Ch.minus) hne)
    rw [← hread, List.replicate_succ, List.cons_append, hrest, hexBytes, if_pos rfl]

/-- A spelling is read, wherever it stands and whatever follows it. -/
theorem Spelled.hexBytes {bytes spelled : Bytes} (h : Spelled bytes spelled) (cursor : Nat) (rest : Bytes) :
    hexBytes cursor (spelled ++ rest) bytes.length = .ok bytes := by
  induction h generalizing cursor with
  | last hpair =>
    obtain ⟨h, l, hhigh, hlow, rfl⟩ := hpair
    change Storage.hexBytes cursor (_ :: _ :: rest) 1 = _
    rw [Storage.hexBytes, if_neg (Pair.digits ⟨h, l, hhigh, hlow, rfl⟩).1, hhigh, hlow]
    dsimp only
    rw [Storage.hexBytes]
    rfl
  | @byte _ _ _ bytes text hpair hyphens hspelled ih =>
    obtain ⟨h, l, hhigh, hlow, rfl⟩ := hpair
    obtain ⟨c, d, tail, htext, -⟩ := hspelled.head
    have hlength : ∃ n, bytes.length = n + 1 := by
      cases hspelled with
      | last _ => exact ⟨0, rfl⟩
      | byte _ _ _ => exact ⟨_, rfl⟩
    obtain ⟨n, hn⟩ := hlength
    rw [List.cons_append, List.cons_append, List.append_assoc, List.length_cons, Storage.hexBytes,
      if_neg (Pair.digits ⟨h, l, hhigh, hlow, rfl⟩).1, hhigh, hlow]
    dsimp only
    obtain ⟨cursor', hskip⟩ := hexBytes_hyphens hyphens (cursor + 2) n (text ++ rest) (by rw [htext]; simp)
    rw [hn, hskip, ← hn, ih cursor']
    rfl

/-- What is read is a spelling behind hyphens. -/
theorem spelled_of_hexBytes {cursor wanted : Nat} {text bytes : Bytes}
    (h : hexBytes cursor text wanted = .ok bytes)
    (hwanted : wanted ≠ 0) :
    ∃ hyphens spelled rest, text = List.replicate hyphens Ch.minus ++ (spelled ++ rest) ∧
        Spelled bytes spelled := by
  induction cursor, text, wanted using hexBytes.induct generalizing bytes with
  | case1 => exact absurd rfl hwanted
  | case2 | case3 => cases h
  | case4 cursor d rest wanted ih =>
    rw [hexBytes, if_pos rfl] at h
    obtain ⟨hyphens, spelled, more, htext, hspelled⟩ := ih h hwanted
    exact ⟨hyphens + 1, spelled, more, by rw [htext]; rfl, hspelled⟩
  | case5 cursor c d rest wanted hc high low hlow hhigh ih =>
    rw [hexBytes, if_neg hc, hhigh, hlow] at h
    obtain ⟨tail, htail, rfl⟩ := Fallible.of_map h
    have hpair : Pair (UInt8.ofNat (high * 16 + low)) c d := ⟨high, low, hhigh, hlow, rfl⟩
    by_cases hzero : wanted = 0
    · subst hzero
      have hlength := hexBytes_length htail
      rw [List.length_eq_zero_iff.mp hlength]
      exact ⟨0, [c, d], rest, rfl, .last hpair⟩
    · obtain ⟨hyphens, spelled, more, rfl, hspelled⟩ := ih htail hzero
      refine ⟨0, c :: d :: (List.replicate hyphens Ch.minus ++ spelled), more, ?_, .byte hpair hyphens hspelled⟩
      simp
  | case6 cursor c d rest wanted hc hnot =>
    rw [hexBytes, if_neg hc] at h
    split at h
    · rename_i hhigh hlow
      exact (hnot _ _ hhigh hlow).elim
    · cases h

theorem hexBytes_of_guidFromText {text : Bytes} {g : Guid} (h : guidFromText text = .ok g) :
    hexBytes 0 (unbraced text) 16 = .ok g.bytes := by
  unfold guidFromText at h
  split at h
  · cases h
  · next hread =>
    rw [hread, ← Except.ok.inj h]

/-- A GUID is read of its spelling behind hyphens, whatever follows. -/
theorem guidFromText_spelled {text spelled rest : Bytes} {g : Guid} {hyphens : Nat} (h : Spelled g.bytes spelled)
    (htext : unbraced text = List.replicate hyphens Ch.minus ++ (spelled ++ rest)) :
    guidFromText text = .ok g := by
  apply guidFromText_of_hexBytes
  obtain ⟨c, d, tail, hhead, -⟩ := h.head
  obtain ⟨cursor, hskip⟩ := hexBytes_hyphens hyphens 0 15 (spelled ++ rest) (by rw [hhead]; simp)
  have hread := h.hexBytes cursor rest
  rw [g.size] at hread
  rw [htext, hskip, hread]

/-- The texts of GUIDs are read exactly: their own always, and any other text unless sixteen bytes stand in it behind
hyphens, or before anything else. -/
theorem guid_texts_exact_iff (text : Bytes) :
    (∀ g : Guid, guidFromText g.toText = .ok g ∧ guidFromText g.hyphenated = .ok g) ∧
      (ReadExactly text ↔ ¬ Stray text) := by
  refine ⟨fun g => ⟨guidFromText_toText g, guidFromText_hyphenated g⟩, fun hexact => ?_, fun hclear g => ?_⟩
  · rintro ⟨bytes, hyphens, spelled, rest, hsize, hspelled, htext, hstray⟩
    have hread : Spelled bytes (unbraced text) := (hexact ⟨bytes, hsize⟩).mp (guidFromText_spelled hspelled htext)
    rw [htext] at hread
    by_cases hnone : hyphens = 0
    · subst hnone
      rcases hstray with hne | hne
      · exact hne rfl
      · exact hne (hspelled.rest_nil hread rfl)
    · obtain ⟨n, rfl⟩ := Nat.exists_eq_succ_of_ne_zero hnone
      obtain ⟨c, d, tail, hhead, hc⟩ := hread.head
      exact hc (List.cons.inj hhead).1.symm
  · refine ⟨fun hread => ?_, fun hspelled => ?_⟩
    · obtain ⟨hyphens, spelled, rest, htext, hspelled⟩ :=
        spelled_of_hexBytes (hexBytes_of_guidFromText hread) (by decide)
      have hexact : hyphens = 0 ∧ rest = [] := by
        by_contra hstray
        exact hclear ⟨g.bytes, hyphens, spelled, rest, g.size, hspelled, htext, not_and_or.mp hstray⟩
      obtain ⟨rfl, rfl⟩ := hexact
      rw [htext, List.append_nil]
      exact hspelled
    · have hbare : unbraced text = List.replicate 0 Ch.minus ++ (unbraced text ++ []) := (List.append_nil _).symm
      exact guidFromText_spelled hspelled hbare

/-- Sixteen bytes and an `x` are read as a GUID. -/
theorem guidFromText_trailing : ¬ ∀ text, ReadExactly text := by
  intro h
  have hread : guidFromText (ascii "00000000000000000000000000000000x") = .ok Guid.zero := by decide +kernel
  have hspelled := (h _ Guid.zero).mp hread
  have hcount := hspelled.count
  exact absurd hcount (by decide)

end Agiru.Storage
