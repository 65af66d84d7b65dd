import Mathlib.Data.List.Basic
import Mathlib.Data.List.TakeWhile

/-! Binary search.

`lowerBound` is the first position at which a test fails, `search` the element at
which a three-way probe answers `eq`. Both halve an interval; on a list whose
elements come in the order of the test or the probe they are `takeWhile` and
`find?`. -/
namespace Search

variable {α : Type}
variable {xs : List α} {probe : α → Ordering}
variable {below : α → Bool}

/-- The interval `[first, last)` halved until it is empty; it has at most `fuel`
positions. -/
def lowerBoundFrom (below : α → Bool) (xs : List α) : Nat → Nat → Nat → Nat
  | 0, first, _ => first
  | fuel + 1, first, last =>
    if first < last then
      let middle := first + (last - first) / 2
      if xs[middle]?.any below then lowerBoundFrom below xs fuel (middle + 1) last
      else lowerBoundFrom below xs fuel first middle
    else first

def lowerBound (below : α → Bool) (xs : List α) : Nat :=
  lowerBoundFrom below xs xs.length 0 xs.length

/-- The elements that pass the test stand before those that do not. -/
def Divided (below : α → Bool) (xs : List α) : Prop :=
  xs.Pairwise fun a b => below b = true → below a = true

/-- On a divided list a position passes exactly when it is before the first failure. -/
theorem any_iff_lt (h : Divided below xs) {i : Nat}
    (hi : i < xs.length) : xs[i]?.any below = true ↔ i < (xs.takeWhile below).length := by
  induction xs generalizing i with
  | nil => simp at hi
  | cons x rest ih =>
    obtain ⟨hx, hrest⟩ := List.pairwise_cons.mp h
    cases i with
    | zero => cases hb : below x <;> simp [hb]
    | succ i =>
      have hi' : i < rest.length := Nat.lt_of_succ_lt_succ hi
      rw [List.getElem?_cons_succ]
      cases hb : below x with
      | true => simpa [hb] using ih hrest hi'
      | false =>
        have hnot : below rest[i] = false := by
          by_contra hne
          have := hx _ (List.getElem_mem hi') (by simpa using hne)
          simp [hb] at this
        simp [hb, List.getElem?_eq_getElem hi', hnot]

theorem lowerBoundFrom_eq (h : Divided below xs)
    {fuel first last : Nat} (hfuel : last - first ≤ fuel) (hlast : last ≤ xs.length)
    (hlow : first ≤ (xs.takeWhile below).length) (hhigh : (xs.takeWhile below).length ≤ last) :
    lowerBoundFrom below xs fuel first last = (xs.takeWhile below).length := by
  induction fuel generalizing first last with
  | zero =>
    rw [lowerBoundFrom]
    omega
  | succ fuel ih =>
    rw [lowerBoundFrom]
    split
    · next hlt =>
      have hmiddle : first + (last - first) / 2 < last := by omega
      have hany := any_iff_lt h (Nat.lt_of_lt_of_le hmiddle hlast)
      dsimp only
      split
      · next hbelow =>
        have := hany.mp hbelow
        exact ih (by omega) hlast (by omega) hhigh
      · next hnot =>
        have : ¬ first + (last - first) / 2 < (xs.takeWhile below).length := fun hl => hnot (hany.mpr hl)
        exact ih (by omega) (by omega) hlow (by omega)
    · omega

/-- On a divided list the lower bound is where the elements that pass end. -/
theorem lowerBound_eq (h : Divided below xs) : lowerBound below xs = (xs.takeWhile below).length :=
  lowerBoundFrom_eq h (by omega) (Nat.le_refl _) (Nat.zero_le _) (List.takeWhile_prefix _).length_le

theorem lowerBoundFrom_map {β : Type} (f : β → α) (below : α → Bool) (xs : List β)
    (fuel first last : Nat) :
    lowerBoundFrom below (xs.map f) fuel first last =
      lowerBoundFrom (fun x => below (f x)) xs fuel first last := by
  induction fuel generalizing first last with
  | zero => rfl
  | succ fuel ih =>
    simp only [lowerBoundFrom, ih, List.getElem?_map, Option.any_map]

/-- A search of what stands behind the elements searches the elements. -/
theorem lowerBound_map {β : Type} (f : β → α) (below : α → Bool) (xs : List β) :
    lowerBound below (xs.map f) = lowerBound (fun x => below (f x)) xs := by
  rw [lowerBound, lowerBoundFrom_map, List.length_map, lowerBound]

/-! ### Searching for one element -/

/-- The interval `[low, high)` halved until the probe answers `eq` or it is empty. -/
def searchFrom (probe : α → Ordering) (xs : List α) : Nat → Nat → Nat → Option α
  | 0, _, _ => none
  | fuel + 1, low, high =>
    if low < high then
      let middle := low + (high - low) / 2
      match xs[middle]? with
      | none => none
      | some x =>
        match probe x with
        | .eq => some x
        | .lt => searchFrom probe xs fuel (middle + 1) high
        | .gt => searchFrom probe xs fuel low middle
    else none

def search (probe : α → Ordering) (xs : List α) : Option α :=
  searchFrom probe xs xs.length 0 xs.length

/-- What a search answers, the probe answers `eq` on. -/
theorem searchFrom_some {fuel low high : Nat} {x : α}
    (h : searchFrom probe xs fuel low high = some x) : x ∈ xs ∧ probe x = .eq := by
  induction fuel generalizing low high with
  | zero => cases h
  | succ fuel ih =>
    rw [searchFrom] at h
    split at h
    · dsimp only at h
      split at h
      · cases h
      · next y hy =>
        split at h
        · next heq =>
          cases h
          exact ⟨List.mem_of_getElem? hy, heq⟩
        · exact ih h
        · exact ih h
    · cases h

theorem search_some {x : α} (h : search probe xs = some x) : x ∈ xs ∧ probe x = .eq :=
  searchFrom_some h

/-- The probe rises along the list and answers `eq` at most once. -/
def Rising (probe : α → Ordering) (xs : List α) : Prop :=
  xs.Pairwise fun a b => probe a = .lt ∨ probe b = .gt

/-- On a rising list an element with the answer `eq` is found wherever it stands. -/
theorem searchFrom_eq (h : Rising probe xs)
    {fuel low high i : Nat} (hfuel : high - low ≤ fuel) (hhigh : high ≤ xs.length)
    (hi : low ≤ i ∧ i < high) {x : α} (hx : xs[i]? = some x) (heq : probe x = .eq) :
    searchFrom probe xs fuel low high = some x := by
  induction fuel generalizing low high with
  | zero => omega
  | succ fuel ih =>
    have hlt : low < high := by omega
    have hmiddle : low + (high - low) / 2 < xs.length := by omega
    obtain ⟨hilt, hxi⟩ := List.getElem?_eq_some_iff.mp hx
    rw [searchFrom, if_pos hlt]
    dsimp only
    rw [List.getElem?_eq_getElem hmiddle]
    dsimp only
    rcases Nat.lt_trichotomy (low + (high - low) / 2) i with hbefore | hat | hafter
    · have hp := List.pairwise_iff_getElem.mp h _ _ hmiddle hilt hbefore
      rw [hxi, heq] at hp
      have hlow : probe xs[low + (high - low) / 2] = .lt := by simpa using hp
      rw [hlow]
      exact ih (by omega) hhigh (by omega)
    · subst hat
      rw [hxi, heq]
    · have hp := List.pairwise_iff_getElem.mp h _ _ hilt hmiddle hafter
      rw [hxi, heq] at hp
      have hgt : probe xs[low + (high - low) / 2] = .gt := by simpa using hp
      rw [hgt]
      exact ih (by omega) (by omega) (by omega)

/-- On a rising list a search is `find?`. -/
theorem search_eq (h : Rising probe xs) : search probe xs = xs.find? fun x => probe x = .eq := by
  cases hfind : xs.find? fun x => probe x = .eq with
  | none =>
    cases hs : search probe xs with
    | none => rfl
    | some x =>
      obtain ⟨hmem, heq⟩ := search_some hs
      have := List.find?_eq_none.mp hfind x hmem
      simp [heq] at this
  | some x =>
    have heq : probe x = .eq := by simpa using List.find?_some hfind
    obtain ⟨i, hi, hx⟩ := List.mem_iff_getElem.mp (List.mem_of_find?_eq_some hfind)
    exact searchFrom_eq h (by omega) (Nat.le_refl _) ⟨Nat.zero_le _, hi⟩
      (List.getElem?_eq_some_iff.mpr ⟨hi, hx⟩) heq

end Search
