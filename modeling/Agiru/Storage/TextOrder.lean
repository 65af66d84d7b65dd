import Agiru.Storage.DayOrder
import Agiru.Storage.Identities

/-! The texts of times, of instants and of whole numbers, in their order.

The parts of a time are of one length each, so its text is in its order (`compare_timeText`). An instant's is in
the order of the day that it names, and of none where it names none (`compare_dateTimeText`); digits without zeros
before them are in the order of their numbers only as far as the shorter one goes (`compare_natText`). -/
namespace Agiru.Storage
open Bytes

/-! ### Times -/

theorem compare_timeText (s t : Time) :
    Ord.compare s.toInvariantString t.toInvariantString = Ord.compare s.milliseconds t.milliseconds := by
  have htext : ∀ t : Time, t.toInvariantString = padded 2 (t.milliseconds / 3600000) ++ (ascii ":" ++
      (padded 2 (t.milliseconds / 60000 % 60) ++ (ascii ":" ++ (padded 2 (t.milliseconds / 1000 % 60) ++
        ([Ch.dot] ++ padded 3 (t.milliseconds % 1000)))))) := by
    intro t
    simp only [Time.toInvariantString, List.append_assoc]
  have hhours : ∀ t : Time, t.milliseconds / 3600000 < 10 ^ 2 := by
    intro t
    have hbounded : t.milliseconds < 86400000 := t.bounded
    omega
  have hlengths : ∀ {width m n}, 0 < width → m < 10 ^ width → n < 10 ^ width →
      (padded width m).length = (padded width n).length := fun hwidth hm hn =>
    (padded_length hwidth hm).trans (padded_length hwidth hn).symm
  have hcolon : Ord.compare (ascii ":") (ascii ":") = .eq := by decide
  have hdot : Ord.compare [Ch.dot] [Ch.dot] = .eq := by decide
  have hparts : ∀ t : Time, t.milliseconds = t.milliseconds / 3600000 * 3600000 +
      (t.milliseconds / 60000 % 60 * 60000 + (t.milliseconds / 1000 % 60 * 1000 + t.milliseconds % 1000)) := by
    intro t
    omega
  rw [htext s, htext t, compare_append (hlengths (by decide) (hhours s) (hhours t)), compare_append rfl,
    compare_append (hlengths (by decide) (by omega) (by omega)), compare_append rfl,
    compare_append (hlengths (by decide) (by omega) (by omega)), compare_append rfl, hcolon, hdot, Ordering.eq_then,
    Ordering.eq_then, Ordering.eq_then, compare_padded (by decide) (hhours s) (hhours t),
    compare_padded (by decide) (by omega) (by omega), compare_padded (by decide) (by omega) (by omega),
    compare_padded (by decide) (by omega) (by omega),
    @compare_places 1000 (s.milliseconds % 1000) (t.milliseconds % 1000) (by omega) (by omega),
    @compare_places 60000 _ _ (by omega) (by omega), @compare_places 3600000 _ _ (by omega) (by omega), ← hparts s,
    ← hparts t]

/-! ### Instants -/

/-- Where the text of an instant stands: by the day that it names, behind every day where it names none. -/
def place (t : DateTime) : Nat :=
  if t.isUndefined then 0
  else (if t.date.isUndefined then lastDayIndex + 2 else t.date.serial / 2) * millisecondsPerDay +
    t.time.milliseconds + 1

/-- The text of a date, with a digit before the rest. -/
theorem dateText_parts {d : Date} (h : d.isUndefined = false) :
    d.toInvariantString.length = 10 ∧ ∃ c rest, d.toInvariantString = c :: rest ∧ isDigit c = true := by
  obtain ⟨-, hy, hm, hd⟩ := civil_bounds h
  obtain ⟨a, b, c, e, hyear⟩ := padded_four hy
  have hdigit : isDigit a = true := digits_padded 4 d.civil.year.toNat a (by rw [hyear]; exact List.mem_cons_self)
  have htext : d.toInvariantString = padded 4 d.civil.year.toNat ++ ([Ch.minus] ++ (padded 2 d.civil.month ++
      ([Ch.minus] ++ padded 2 d.civil.day))) := by
    rw [Date.toInvariantString, h]
    simp
  refine ⟨?_, a, _, by rw [htext, hyear]; rfl, hdigit⟩
  simp only [htext, List.length_append, padded_length (show 0 < 4 by decide) hy,
    padded_length (show 0 < 2 by decide) hm, padded_length (show 0 < 2 by decide) hd, List.length_singleton]

/-- The texts of instants, of which each is of a day or of none. -/
theorem compare_datedText (d e : Date) (s t : Bytes) :
    Ord.compare (d.toInvariantString ++ (ascii "T" ++ s)) (e.toInvariantString ++ (ascii "T" ++ t)) =
      (Ord.compare (if d.isUndefined then lastDayIndex + 2 else d.serial / 2)
        (if e.isUndefined then lastDayIndex + 2 else e.serial / 2)).then (Ord.compare s t) := by
  have hletter : Ord.compare (ascii "T") (ascii "T") = .eq := by decide
  have hsame : Ord.compare (ascii "T" ++ s) (ascii "T" ++ t) = Ord.compare s t := by
    rw [compare_append rfl, hletter, Ordering.eq_then]
  have hdigit : ∀ c, isDigit c = true → Ord.compare c 84 = .lt ∧ Ord.compare 84 c = .gt :=
    forall_byte (p := fun c => isDigit c = true → Ord.compare c 84 = .lt ∧ Ord.compare 84 c = .gt)
        (by decide +kernel)
  have hbehind : ascii "T" = [84] := rfl
  have hnone : ∀ d : Date, d.isUndefined = true → d.toInvariantString = [] := by
    intro d hd
    rw [Date.toInvariantString, hd, if_pos rfl]
  have hday : ∀ d : Date, d.serial / 2 < lastDayIndex + 2 := by
    intro d
    have hbounded := d.bounded
    omega
  cases hd : d.isUndefined with
  | true =>
    cases he : e.isUndefined with
    | true =>
      rw [hnone d hd, hnone e he, if_pos rfl, if_pos rfl, compare_eq_iff_eq.mpr rfl, Ordering.eq_then]
      exact hsame
    | false =>
      obtain ⟨-, c, rest, htext, hc⟩ := dateText_parts he
      rw [hnone d hd, htext, hbehind, if_pos rfl, if_neg Bool.false_ne_true, compare_gt_iff_gt.mpr (hday e),
        List.nil_append, List.cons_append, List.cons_append, List.compare_cons_cons, (hdigit c hc).2]
      rfl
  | false =>
    cases he : e.isUndefined with
    | true =>
      obtain ⟨-, c, rest, htext, hc⟩ := dateText_parts hd
      rw [hnone e he, htext, hbehind, if_pos rfl, if_neg Bool.false_ne_true, compare_lt_iff_lt.mpr (hday d),
        List.nil_append, List.cons_append, List.singleton_append, List.singleton_append, List.compare_cons_cons,
        (hdigit c hc).1]
      rfl
    | false =>
      rw [compare_append ((dateText_parts hd).1.trans (dateText_parts he).1.symm), compare_dateText, hsame]
      simp

theorem compare_dateTimeText (s t : DateTime) :
    Ord.compare s.toInvariantString t.toInvariantString = Ord.compare (place s) (place t) := by
  have hcons : ∀ t : DateTime, t.isUndefined = false → ∃ c rest, t.toInvariantString = c :: rest := by
    intro t ht
    apply List.exists_cons_of_ne_nil
    simp [DateTime.toInvariantString, ht, ascii]
  have hnil : ∀ t : DateTime, t.isUndefined = true → t.toInvariantString = [] ∧ place t = 0 := by
    intro t ht
    simp [DateTime.toInvariantString, place, ht]
  have hplace : ∀ t : DateTime, t.isUndefined = false → 0 < place t := by
    intro t ht
    simp [place, ht]
  cases hs : s.isUndefined with
  | true =>
    rw [(hnil s hs).1, (hnil s hs).2]
    cases ht : t.isUndefined with
    | true =>
      rw [(hnil t ht).1, (hnil t ht).2]
      rfl
    | false =>
      obtain ⟨c, rest, htext⟩ := hcons t ht
      rw [htext, compare_lt_iff_lt.mpr (hplace t ht)]
      rfl
  | false =>
    cases ht : t.isUndefined with
    | true =>
      obtain ⟨c, rest, htext⟩ := hcons s hs
      rw [(hnil t ht).1, (hnil t ht).2, htext, compare_gt_iff_gt.mpr (hplace s hs)]
      rfl
    | false =>
      have htext : ∀ t : DateTime, t.isUndefined = false → t.toInvariantString =
          t.date.toInvariantString ++ (ascii "T" ++ (t.time.toInvariantString ++ ascii "Z")) := by
        intro t ht
        simp [DateTime.toInvariantString, ht]
      have hlength : ∀ t : Time, t.toInvariantString.length = 12 := by
        intro t
        have hbounded : t.milliseconds < 86400000 := t.bounded
        simp only [Time.toInvariantString, List.length_append, List.length_singleton,
          padded_length (show 0 < 2 by decide) (show t.milliseconds / 3600000 < 10 ^ 2 by omega),
          padded_length (show 0 < 2 by decide) (show t.milliseconds / 60000 % 60 < 10 ^ 2 by omega),
          padded_length (show 0 < 2 by decide) (show t.milliseconds / 1000 % 60 < 10 ^ 2 by omega),
          padded_length (show 0 < 3 by decide) (show t.milliseconds % 1000 < 10 ^ 3 by omega)]
        rfl
      have hend : Ord.compare (ascii "Z") (ascii "Z") = .eq := by decide
      rw [htext s hs, htext t ht, compare_datedText, compare_append ((hlength _).trans (hlength _).symm),
        compare_timeText, hend, Ordering.then_eq, compare_places s.time.bounded t.time.bounded]
      simp only [place, hs, ht, Bool.false_eq_true, if_false]
      rw [← cmp_eq_compare, ← cmp_eq_compare, cmp_add_right]

/-! ### Whole numbers -/

/-- The smaller number, with zeros behind it to the length of the larger one, is not above it. -/
def Leads (small large : Nat) : Prop := small * 10 ^ ((natText large).length - (natText small).length) ≤ large

instance (small large : Nat) : Decidable (Leads small large) := inferInstanceAs (Decidable (_ ≤ _))

theorem natText_length_le {m n : Nat} (h : m ≤ n) : (natText m).length ≤ (natText n).length := by
  have hpos : 0 < (natText n).length := List.length_pos_iff.mpr (natText_ne_nil n)
  have hdigits : Digits (natText n) := fun _ hc => isDigit_natText hc
  have hvalue := digitsValue_lt hdigits
  rw [digitsValue_natText] at hvalue
  exact natText_length hpos (Nat.lt_of_le_of_lt h hvalue)

theorem compare_natText {m n : Nat} (h : m < n) :
    Ord.compare (natText m) (natText n) = if Leads m n then .lt else .gt := by
  have hlength := natText_length_le (Nat.le_of_lt h)
  have hm : Digits (natText m) := fun _ hc => isDigit_natText hc
  have hn : Digits (natText n) := fun _ hc => isDigit_natText hc
  -- the larger number's digits: as many as the smaller one has, and the rest
  obtain ⟨front, rest, hfront, hsplit⟩ : ∃ front rest, (natText m).length = front.length ∧ natText n =
      front ++ rest :=
    ⟨(natText n).take (natText m).length, (natText n).drop (natText m).length, by
      rw [List.length_take]
      omega, (List.take_append_drop _ _).symm⟩
  have hvalue := digitsValue_natText n
  have hrest : (natText n).length - (natText m).length = rest.length := by
    rw [hsplit, List.length_append]
    omega
  rw [hsplit] at hn hvalue
  rw [digitsValue_append] at hvalue
  have hlow := digitsValue_lt hn.of_append_right
  have hcompare := compare_append hfront [] rest
  rw [List.append_nil, ← hsplit, compare_digits hm hn.of_append_left hfront, digitsValue_natText] at hcompare
  have hleads : Leads m n ↔ m * 10 ^ rest.length ≤ n := by
    unfold Leads
    rw [hrest]
  rw [hcompare]
  rcases Nat.lt_trichotomy m (digitsValue front) with hlt | heq | hgt
  · have := Nat.mul_le_mul_right (10 ^ rest.length) (Nat.le_of_lt hlt)
    rw [compare_lt_iff_lt.mpr hlt, if_pos (hleads.mpr (by omega))]
    rfl
  · have hne : rest ≠ [] := by
      rintro rfl
      simp at hvalue
      omega
    obtain ⟨c, rest, rfl⟩ := List.exists_cons_of_ne_nil hne
    rw [compare_eq_iff_eq.mpr heq, if_pos (hleads.mpr (by rw [heq]; omega))]
    rfl
  · have := Nat.mul_le_mul_right (10 ^ rest.length) (Nat.succ_le_of_lt hgt)
    rw [Nat.succ_mul] at this
    rw [compare_gt_iff_gt.mpr hgt, if_neg (fun h => by have := hleads.mp h; omega)]
    rfl

/-- Digits are in the order of their numbers, or else in the order against it. -/
theorem compare_natText_iff (m n : Nat) :
    (Ord.compare (natText m) (natText n) = Ord.compare m n ↔ Leads (min m n) (max m n)) ∧
      (Ord.compare (natText m) (natText n) = Ord.compare n m ↔ m = n ∨ ¬ Leads (min m n) (max m n)) := by
  rcases Nat.lt_trichotomy m n with h | rfl | h
  · rw [compare_natText h, compare_lt_iff_lt.mpr h, compare_gt_iff_gt.mpr h, min_eq_left (Nat.le_of_lt h),
      max_eq_right (Nat.le_of_lt h)]
    by_cases hleads : Leads m n <;> simp [hleads, Nat.ne_of_lt h]
  · have hleads : Leads m m := by simp [Leads]
    simp [hleads]
  · have hswap : Ord.compare (natText m) (natText n) = (Ord.compare (natText n) (natText m)).swap :=
      Std.OrientedCmp.eq_swap
    rw [hswap, compare_natText h, compare_gt_iff_gt.mpr h, compare_lt_iff_lt.mpr h, min_eq_right (Nat.le_of_lt h),
      max_eq_left (Nat.le_of_lt h)]
    by_cases hleads : Leads n m <;> simp [hleads, Nat.ne_of_gt h]

/-- Whole numbers whose texts are in their order. -/
def WrittenInOrder (m n : Int) : Prop :=
  if m < 0 then 0 ≤ n ∨ m = n ∨ ¬ Leads (min m.natAbs n.natAbs) (max m.natAbs n.natAbs)
  else n < 0 ∨ Leads (min m.natAbs n.natAbs) (max m.natAbs n.natAbs)

instance (m n : Int) : Decidable (WrittenInOrder m n) := by
  unfold WrittenInOrder
  infer_instance

theorem compare_intText_iff (m n : Int) :
    Ord.compare (intText m) (intText n) = Ord.compare m n ↔ WrittenInOrder m n := by
  obtain ⟨hrising, hfalling⟩ := compare_natText_iff m.natAbs n.natAbs
  have hdigit : ∀ n : Nat, ∃ c rest, natText n = c :: rest ∧ isDigit c = true := by
    intro n
    obtain ⟨c, rest, htext⟩ := List.exists_cons_of_ne_nil (natText_ne_nil n)
    exact ⟨c, rest, htext, isDigit_natText (by rw [htext]; exact List.mem_cons_self)⟩
  have hminus : ∀ c, isDigit c = true → Ord.compare Ch.minus c = .lt ∧ Ord.compare c Ch.minus = .gt :=
    forall_byte (p := fun c => isDigit c = true → Ord.compare Ch.minus c = .lt ∧ Ord.compare c Ch.minus = .gt)
      (by decide +kernel)
  have hself : Ord.compare Ch.minus Ch.minus = .eq := by decide
  unfold WrittenInOrder intText
  by_cases hm : m < 0 <;> by_cases hn : n < 0
  · have hreversed : Ord.compare m n = Ord.compare n.natAbs m.natAbs := by
      rcases Int.lt_trichotomy m n with h | rfl | h
      · rw [compare_lt_iff_lt.mpr h, compare_lt_iff_lt.mpr (by omega)]
      · rw [compare_eq_iff_eq.mpr rfl, compare_eq_iff_eq.mpr rfl]
      · rw [compare_gt_iff_gt.mpr h, compare_gt_iff_gt.mpr (by omega)]
    rw [if_pos hm, if_pos hn, if_pos hm, List.singleton_append, List.singleton_append, List.compare_cons_cons, hself,
      Ordering.eq_then, hreversed, hfalling, or_iff_right (show ¬ 0 ≤ n by omega)]
    exact or_congr_left (by omega)
  · obtain ⟨c, rest, htext, hc⟩ := hdigit n.natAbs
    rw [if_pos hm, if_neg hn, if_pos hm, List.singleton_append, List.nil_append, htext, List.compare_cons_cons,
      (hminus c hc).1, compare_lt_iff_lt.mpr (by omega : m < n)]
    exact iff_of_true rfl (.inl (by omega))
  · obtain ⟨c, rest, htext, hc⟩ := hdigit m.natAbs
    rw [if_neg hm, if_pos hn, if_neg hm, List.singleton_append, List.nil_append, htext, List.compare_cons_cons,
      (hminus c hc).2, compare_gt_iff_gt.mpr (by omega : n < m)]
    exact iff_of_true rfl (.inl hn)
  · have hsame : Ord.compare m n = Ord.compare m.natAbs n.natAbs := by
      rw [← compare_cast, Int.natAbs_of_nonneg (by omega), Int.natAbs_of_nonneg (by omega)]
    rw [if_neg hm, if_neg hn, if_neg hm, List.nil_append, List.nil_append, hsame, hrising, or_iff_right hn]

end Agiru.Storage
