import Agiru.CalcDate.Days

/-! The weekdays of a formula.

A weekday's term goes by the remainder of a difference, which has the difference's sign: it goes the way it should
exactly where the difference has the sign of the term (`weekdays_move_iff`). -/
namespace Agiru

namespace CalcDate
open Storage Date

/-- The day that a weekday's term names: the first with the weekday after a day, or the last before it. -/
def Sought (days : Int) (target : Nat) (backwards : Bool) (k : Int) : Prop :=
  if backwards then IsGreatest {k | k < days ∧ isoWeekday k = target} k
  else IsLeast {k | days < k ∧ isoWeekday k = target} k

/-- What came out is the date of the day that the term names, while it is in the range: up to seven days away. -/
def Moves (d : Date) (target : Nat) (backwards : Bool) (out : Except Fault Date) : Prop :=
  ∀ k : Int, Sought d.daysSinceFirst target backwards k → 0 ≤ k → k ≤ lastDayIndex →
    out = .ok (fromDaysSinceFirst k) ∧ 1 ≤ (k - d.daysSinceFirst).natAbs ∧ (k - d.daysSinceFirst).natAbs ≤ 7

/-- The weekdays' terms of a formula, each with the date that the terms before it come to. -/
def Weekday (terms : List Term) (from_ : Date) (before : List Term) (term : Term) (d : Date) : Prop :=
  before ++ [term] <+: terms ∧ term.kind = .weekday ∧ (1 ≤ term.count ∧ term.count ≤ 7) ∧
    calcDate before from_ = .ok d ∧ d.isUndefined = false

/-- Every weekday of the formula is moved to as its term says. -/
def WeekdaysMove (terms : List Term) (from_ : Date) : Prop :=
  ∀ before term d, Weekday terms from_ before term d →
    Moves d term.count term.negative (calcDate (before ++ [term]) from_)

/-- The weekday is not on the other side of the date's own in its week, or the day that is sought is out of the
range. -/
def Ahead (d : Date) (target : Nat) (backwards : Bool) : Prop :=
  if backwards then (target : Int) ≤ d.dayOfWeek ∨ d.daysSinceFirst - (d.dayOfWeek - target + 7) < 0
  else d.dayOfWeek ≤ target ∨ lastDayIndex < d.daysSinceFirst + (target - d.dayOfWeek + 7)

instance (d : Date) (target : Nat) (backwards : Bool) : Decidable (Ahead d target backwards) := by
  unfold Ahead
  infer_instance

/-! ### Runs -/

theorem calcDate_concat {from_ : Date} (h : from_.isUndefined = false) (terms : List Term) (term : Term) :
    calcDate (terms ++ [term]) from_ = calcDate terms from_ >>= fun d => step d term := by
  rw [calcDate, calcDate, h, if_neg Bool.false_ne_true, if_neg Bool.false_ne_true, List.foldlM_append]
  simp only [List.foldlM_cons, List.foldlM_nil, bind_pure]

theorem calcDate_undefined {from_ : Date} (h : from_.isUndefined = true) (terms : List Term) :
    calcDate terms from_ = .ok from_ := by
  rw [calcDate, if_pos h]

/-! ### One weekday -/

theorem tmod_week {x : Int} (hlow : -7 < x) (hhigh : x < 7) : x.tmod 7 = x := by
  interval_cases x <;> rfl

theorem isoWeekday_bounds (days : Int) : 1 ≤ isoWeekday days ∧ isoWeekday days ≤ 7 := by
  unfold isoWeekday
  omega

section
variable {days k : Int} {target : Nat} (hlow : 1 ≤ target) (hhigh : target ≤ 7)
include hlow hhigh

theorem sought_forward_iff : Sought days target false k ↔
    k = days + if isoWeekday days < target then target - isoWeekday days else target - isoWeekday days + 7 := by
  have hleast : IsLeast {k | days < k ∧ isoWeekday k = target}
      (days + if isoWeekday days < target then target - isoWeekday days else target - isoWeekday days + 7) := by
    refine ⟨⟨?_, ?_⟩, fun j hj => ?_⟩
    · unfold isoWeekday
      split <;> omega
    · unfold isoWeekday
      split <;> omega
    · obtain ⟨hafter, hday⟩ := hj
      unfold isoWeekday at hday ⊢
      split <;> omega
  rw [Sought, if_neg Bool.false_ne_true]
  exact ⟨fun h => h.unique hleast, fun h => h ▸ hleast⟩

theorem sought_backwards_iff : Sought days target true k ↔
    k = days - if target < isoWeekday days then isoWeekday days - target else isoWeekday days - target + 7 := by
  have hgreatest : IsGreatest {k | k < days ∧ isoWeekday k = target}
      (days - if target < isoWeekday days then isoWeekday days - target else isoWeekday days - target + 7) := by
    refine ⟨⟨?_, ?_⟩, fun j hj => ?_⟩
    · unfold isoWeekday
      split <;> omega
    · unfold isoWeekday
      split <;> omega
    · obtain ⟨hbefore, hday⟩ := hj
      unfold isoWeekday at hday ⊢
      split <;> omega
  rw [Sought, if_pos rfl]
  exact ⟨fun h => h.unique hgreatest, fun h => h ▸ hgreatest⟩

variable {d : Date} (hdefined : d.isUndefined = false)
include hdefined

theorem weekday_forward : weekday d target false =
    fromDaysSinceFirst (d.daysSinceFirst + orWeek (target - isoWeekday d.daysSinceFirst)) := by
  have hbounds := isoWeekday_bounds d.daysSinceFirst
  rw [weekday, if_neg (by omega), dayOfWeek_eq hdefined]
  simp only [Bool.false_eq_true, if_false]
  rw [tmod_week (by omega) (by omega)]

theorem weekday_backwards : weekday d target true =
    fromDaysSinceFirst (d.daysSinceFirst - orWeek (isoWeekday d.daysSinceFirst - target)) := by
  have hbounds := isoWeekday_bounds d.daysSinceFirst
  rw [weekday, if_neg (by omega), dayOfWeek_eq hdefined]
  simp only [if_true]
  rw [tmod_week (by omega) (by omega)]
  rfl

theorem moves_forward_iff : Moves d target false (.ok (weekday d target false)) ↔ Ahead d target false := by
  have hrange := daysSinceFirst_bounds hdefined
  have hbounds := isoWeekday_bounds d.daysSinceFirst
  rw [Ahead, if_neg Bool.false_ne_true, weekday_forward hlow hhigh hdefined, dayOfWeek_eq hdefined]
  simp only [Moves, sought_forward_iff hlow hhigh, Except.ok.injEq]
  constructor
  · intro hmoves
    by_contra hturned
    obtain ⟨heq, -⟩ := hmoves _ rfl (by split <;> omega) (by split <;> omega)
    rw [if_neg (by omega)] at heq
    have := fromDays_inj (by omega) (by omega) heq
    unfold orWeek at this
    split at this <;> omega
  · rintro hahead k rfl - hlast
    unfold orWeek
    split at hlast
    · rw [if_neg (by omega), if_pos (by omega)]
      exact ⟨rfl, by omega, by omega⟩
    · rw [if_pos (by omega), if_neg (by omega)]
      exact ⟨by congr 1; omega, by omega, by omega⟩

theorem moves_backwards_iff : Moves d target true (.ok (weekday d target true)) ↔ Ahead d target true := by
  have hrange := daysSinceFirst_bounds hdefined
  have hbounds := isoWeekday_bounds d.daysSinceFirst
  rw [Ahead, if_pos rfl, weekday_backwards hlow hhigh hdefined, dayOfWeek_eq hdefined]
  simp only [Moves, sought_backwards_iff hlow hhigh, Except.ok.injEq]
  constructor
  · intro hmoves
    by_contra hturned
    obtain ⟨heq, -⟩ := hmoves _ rfl (by split <;> omega) (by split <;> omega)
    rw [if_neg (by omega)] at heq
    have := fromDays_inj (by omega) (by omega) heq
    unfold orWeek at this
    split at this <;> omega
  · rintro hahead k rfl hfirst -
    unfold orWeek
    split at hfirst
    · rw [if_neg (by omega), if_pos (by omega)]
      exact ⟨rfl, by omega, by omega⟩
    · rw [if_pos (by omega), if_neg (by omega)]
      exact ⟨by congr 1; omega, by omega, by omega⟩

end

/-- **When a formula's weekdays are moved to as they should be**: where each is ahead, the way of its term, of the
weekday of the date that the terms before it come to, or the day sought is out of the range. -/
theorem weekdays_move_iff (terms : List Term) (from_ : Date) : WeekdaysMove terms from_ ↔
    ∀ before term d, Weekday terms from_ before term d → Ahead d term.count term.negative := by
  refine forall_congr' fun before => forall_congr' fun term => forall_congr' fun d => imp_congr_right fun h => ?_
  obtain ⟨-, hkind, ⟨hlow, hhigh⟩, hcalc, hdefined⟩ := h
  have hfrom : from_.isUndefined = false := by
    by_contra hundefined
    rw [Bool.not_eq_false] at hundefined
    rw [calcDate_undefined hundefined] at hcalc
    rw [Except.ok.inj hcalc, hdefined] at hundefined
    cases hundefined
  have hstep : calcDate (before ++ [term]) from_ = .ok (weekday d term.count term.negative) := by
    rw [calcDate_concat hfrom, hcalc]
    change step d term = _
    simp only [step, hkind]
    rfl
  rw [hstep]
  cases term.negative with
  | false => exact moves_forward_iff hlow hhigh hdefined
  | true => exact moves_backwards_iff hlow hhigh hdefined

/-- From a Tuesday, the first Monday after it is a day before it. -/
theorem weekday_turned : ¬ ∀ terms from_, WeekdaysMove terms from_ := by
  intro h
  have hmoves := h [⟨.weekday, .day, 1, false⟩] (fromYmd 1996 5 21) [] _ (fromYmd 1996 5 21)
    ⟨List.prefix_rfl, rfl, ⟨by decide, by decide⟩, rfl, by decide⟩
  have hahead := (moves_forward_iff (by decide) (by decide) (by decide)).mp hmoves
  exact absurd hahead (by decide)

end CalcDate

end Agiru
