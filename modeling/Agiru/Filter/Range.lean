import Agiru.Filter.Literal

/-! The filter that a range sets, and the bounds that are read of it.

The filter is one atom whatever the two texts are, since nothing separates what `literally` writes; its
bounds are read of what stands before the first two dots and behind them. -/
namespace Agiru.Filter
open Bytes

variable {separator : UInt8} {before low : Bytes}

/-- `SetRange` between two texts. -/
def rangeFilter (low high : Bytes) : Bytes := literally low ++ Ch.dot :: Ch.dot :: literally high

def notARange (filter : Bytes) : Bytes := ascii "The filter " ++ filter ++ ascii " is not a range"

/-- `RangeBoundOf`. -/
def rangeBoundOf (filter : Bytes) (upper : Bool) : Except Bytes Bytes :=
  match parseFilter filter with
  | [] => .ok []
  | [[atom]] =>
    match atom.compare with
    | .equal => .ok atom.value
    | .between =>
      if upper then .ok (if atom.openUpper then [] else atom.upper)
      else .ok (if atom.openLower then [] else atom.value)
    | .less | .lessOrEqual => .ok (if upper then atom.value else [])
    | .greater | .greaterEqual => .ok (if upper then [] else atom.value)
    | .notEqual | .like | .notLike => .error (notARange filter)
  | _ => .error (notARange filter)

/-- The texts that are read of a bound as they were. -/
structure Spelled (text : Bytes) : Prop where
  noQuote : Ch.quote ∉ text
  kept : trim text = text ∨ text.any special = true

/-! ### What trimming leaves -/

theorem dropWhile_before (a b : Bytes) {c : UInt8} (hc : isSpace c = false) :
    (a ++ c :: b).dropWhile isSpace = a.dropWhile isSpace ++ c :: b := by
  rw [List.dropWhile_append]
  split
  · next hempty =>
    rw [List.isEmpty_iff.mp hempty, List.dropWhile_cons_of_neg (by simp [hc])]
    rfl
  · rfl

theorem rdropWhile_behind (a b : Bytes) {c : UInt8} (hc : isSpace c = false) :
    (a ++ c :: b).rdropWhile isSpace = a ++ c :: b.rdropWhile isSpace := by
  have hreverse : (a ++ c :: b).reverse = b.reverse ++ c :: a.reverse := by simp
  rw [List.rdropWhile, hreverse, dropWhile_before _ _ hc, List.rdropWhile]
  simp

/-- What stands around two dots is trimmed on its own side. -/
theorem trim_around (a b : Bytes) : trim (a ++ Ch.dot :: Ch.dot :: b) =
    a.dropWhile isSpace ++ Ch.dot :: Ch.dot :: b.rdropWhile isSpace := by
  rw [trim, dropWhile_before a _ rfl, rdropWhile_behind _ _ rfl]
  congr 2
  exact rdropWhile_behind [] b rfl

theorem trim_dropWhile (text : Bytes) : trim (text.dropWhile isSpace) = trim text := by
  rw [trim, List.dropWhile_idempotent, trim]

theorem trim_rdropWhile (text : Bytes) : trim (text.rdropWhile isSpace) = trim text := by
  have hbehind : trim (text.rtakeWhile isSpace) = [] := trim_eq_nil_iff.mpr fun c hc => List.mem_rtakeWhile_imp hc
  have h := @trim_surrounded (text.rdropWhile isSpace) [] _ rfl hbehind
  rw [List.rdropWhile_append_rtakeWhile] at h
  exact h.symm

theorem unquote_congr {a b : Bytes} (h : trim a = trim b) : unquote a = unquote b := by
  unfold unquote
  rw [h]

/-! ### What is read of a literal -/

theorem literally_cases (text : Bytes) :
    (literally text = quoted text ∧ (text = [] ∨ text.any special = true)) ∨
      (literally text = text ∧ text ≠ [] ∧ ∀ c ∈ text, special c = false) := by
  unfold literally
  split
  · next hnil =>
    rw [hnil]
    exact .inl ⟨rfl, .inl rfl⟩
  · next hne =>
    split
    · next hplain =>
      refine .inr ⟨rfl, hne, ?_⟩
      intro c hc
      have hnone : text.any special = false := by simpa using hplain
      simpa using List.any_eq_false.mp hnone c hc
    · next hspecial => exact .inl ⟨rfl, .inr (by simpa using hspecial)⟩

theorem not_special {text : Bytes} (h : ∀ c ∈ text, special c = false) {c : UInt8} (hc : special c = true) :
    c ∉ text := by
  intro hmem
  rw [h c hmem] at hc
  cases hc

theorem doubled_eq_iff {text : Bytes} : doubled text = text ↔ Ch.quote ∉ text := by
  constructor
  · intro h hquote
    have hcount := List.count_pos_iff.mpr hquote
    have hlength := length_doubled text
    rw [h] at hlength
    omega
  · exact doubled_of_not_mem

/-- Quotes are read doubled, and white space around a text without operators is not read. -/
theorem unquote_literally (text : Bytes) : unquote (literally text) = text ↔ Spelled text := by
  rcases literally_cases text with ⟨hquoted, hkept⟩ | ⟨hplain, hne, hnot⟩
  · rw [hquoted, unquote_quoted, doubled_eq_iff]
    refine ⟨fun h => ⟨h, ?_⟩, fun h => h.noQuote⟩
    rcases hkept with rfl | hspecial
    · exact .inl rfl
    · exact .inr hspecial
  · have hquote : (trim text).head? ≠ some Ch.quote := by
      intro hhead
      exact not_special hnot rfl ((infix_trim text).subset (List.mem_of_head? hhead))
    rw [hplain, unquote_of_head hquote]
    refine ⟨fun h => ⟨not_special hnot rfl, .inl h⟩, fun h => ?_⟩
    rcases h.kept with htrim | hspecial
    · exact htrim
    · obtain ⟨c, hc, hspecial⟩ := List.any_eq_true.mp hspecial
      rw [hnot c hc] at hspecial
      cases hspecial

/-- A bound that is read as it was is not an open end. -/
theorem Spelled.closed {text : Bytes} (h : Spelled text) : trim (literally text) ≠ [] := by
  rcases literally_cases text with ⟨hquoted, -⟩ | ⟨hplain, hne, hnot⟩
  · rw [hquoted, trim_quoted]
    exact List.cons_ne_nil _ _
  · rw [hplain]
    rcases h.kept with htrim | hspecial
    · rwa [htrim]
    · obtain ⟨c, hc, hspecial⟩ := List.any_eq_true.mp hspecial
      rw [hnot c hc] at hspecial
      cases hspecial

/-! ### The filter is one atom -/

theorem splitFrom_plain_append (hspecial : special separator = true) {text : Bytes}
    (h : ∀ c ∈ text, special c = false) (part rest : Bytes) :
    splitFrom separator false 0 part (text ++ rest) = splitFrom separator false 0 (part ++ text) rest := by
  induction text generalizing part with
  | nil => simp
  | cons c text ih =>
    have hc : ∀ d, special d = true → c ≠ d := by
      intro d hd heq
      rw [← heq, h c List.mem_cons_self] at hd
      cases hd
    have hopen : toggled false c = false := if_neg (hc Ch.quote rfl)
    have hnested : nested 0 c = 0 := by
      unfold nested
      rw [if_neg (hc Ch.openParen rfl), if_neg (hc Ch.closeParen rfl)]
    rw [List.cons_append, splitFrom, hopen, if_neg Bool.false_ne_true, hnested,
      if_neg (fun hsep => hc separator hspecial hsep.2), ih fun d hd => h d (List.mem_cons_of_mem c hd),
      List.append_assoc, List.singleton_append]

/-- Nothing separates a literal. -/
theorem splitFrom_literally (hquote : separator ≠ Ch.quote) (hspecial : special separator = true)
    (text part rest : Bytes) :
    splitFrom separator false 0 part (literally text ++ rest) =
      splitFrom separator false 0 (part ++ literally text) rest := by
  rcases literally_cases text with ⟨hquoted, -⟩ | ⟨hplain, -, hnot⟩
  · have hnested : nested 0 Ch.quote = 0 := rfl
    have hsplit : quoted text ++ rest = Ch.quote :: (doubled text ++ Ch.quote :: rest) := by simp [quoted]
    rw [hquoted, hsplit, splitFrom, if_pos (by decide), splitFrom_doubled hquote, splitFrom,
      if_neg (by decide), hnested, if_neg (fun h => hquote h.2.symm)]
    simp [quoted]
  · rw [hplain]
    exact splitFrom_plain_append hspecial hnot part rest

theorem splitFrom_dot (hdot : separator ≠ Ch.dot) (part rest : Bytes) :
    splitFrom separator false 0 part (Ch.dot :: rest) = splitFrom separator false 0 (part ++ [Ch.dot]) rest := by
  have hopen : toggled false Ch.dot = false := rfl
  have hnested : nested 0 Ch.dot = 0 := rfl
  rw [splitFrom, hopen, if_neg Bool.false_ne_true, hnested, if_neg (fun hsep => hdot hsep.2.symm)]

theorem split_rangeFilter (hquote : separator ≠ Ch.quote) (hdot : separator ≠ Ch.dot)
    (hspecial : special separator = true) (low high : Bytes) :
    splitOutsideQuotes (rangeFilter low high) separator = [rangeFilter low high] := by
  have hend := splitFrom_literally hquote hspecial high (literally low ++ [Ch.dot] ++ [Ch.dot]) []
  rw [List.append_nil] at hend
  rw [splitOutsideQuotes, rangeFilter, splitFrom_literally hquote hspecial, List.nil_append,
    splitFrom_dot hdot, splitFrom_dot hdot, hend, splitFrom]
  simp

/-- What the trimmed filter begins with is read as no operator. -/
theorem head_rangeFilter (low high : Bytes) {c : UInt8} (hc : special c = true) (hquote : c ≠ Ch.quote)
    (hdot : c ≠ Ch.dot) : (trim (rangeFilter low high)).head? ≠ some c := by
  rw [rangeFilter, trim_around]
  intro hhead
  rcases literally_cases low with ⟨hquoted, -⟩ | ⟨hplain, -, hnot⟩
  · rw [hquoted, quoted, List.dropWhile_cons_of_neg (by decide)] at hhead
    exact hquote (Option.some.inj hhead).symm
  · rw [hplain] at hhead
    cases hfront : low.dropWhile isSpace with
    | nil =>
      rw [hfront] at hhead
      exact hdot (Option.some.inj hhead).symm
    | cons d rest =>
      rw [hfront] at hhead
      have hmem : d ∈ low := (List.dropWhile_suffix isSpace).subset (hfront ▸ List.mem_cons_self)
      exact not_special hnot hc (Option.some.inj hhead ▸ hmem)

theorem parseFilter_rangeFilter (low high : Bytes) :
    parseFilter (rangeFilter low high) = [[readAtom (rangeFilter low high)]] := by
  have hfront := head_rangeFilter low high (show special Ch.openParen = true from rfl) (by decide) (by decide)
  refine parseFilter_atom (split_rangeFilter (by decide) (by decide) rfl low high)
    (split_rangeFilter (by decide) (by decide) rfl low high) ?_ ?_
  · rw [rangeFilter, trim_around]
    simp
  · simp [grouped, hfront]

/-! ### The two bounds -/

theorem splitDots_append (h : splitDots before = none) (hlast : before.getLast? ≠ some Ch.dot)
    (after : Bytes) : splitDots (before ++ Ch.dot :: Ch.dot :: after) = some (before, after) := by
  induction before with
  | nil => rfl
  | cons c before ih =>
    obtain ⟨hdots, hrest⟩ := splitDots_cons.mp h
    cases before with
    | nil =>
      have hc : c ≠ Ch.dot := by
        rintro rfl
        exact hlast rfl
      simp [splitDots, hc]
    | cons d before =>
      have hnot : ¬ (c = Ch.dot ∧ d = Ch.dot) := by simpa using hdots
      have := ih hrest (by simpa using hlast)
      rw [List.cons_append] at this
      rw [List.cons_append, List.cons_append, splitDots, if_neg (by simpa using hnot), this]
      rfl

/-- Two dots in a text that begins with no operator part two bounds. -/
theorem readAtom_dots {text after : Bytes}
    (hhead : ∀ c, special c = true → c ≠ Ch.quote → c ≠ Ch.dot → (trim text).head? ≠ some c)
    (h : splitDots (trim text) = some (before, after)) :
    readAtom text =
      { compare := .between
        value := unquote before
        upper := unquote after
        openLower := trim before = []
        openUpper := trim after = [] } := by
  have hat := hhead Ch.commercialAt rfl (by decide) (by decide)
  have htake : takeOperator (trim text) = (.equal, trim text) := by
    rw [takeOperator_none, trim_trim]
    intro c hc
    rw [trim_trim]
    have hspecial : special c = true ∧ c ≠ Ch.quote ∧ c ≠ Ch.dot := by
      simp only [List.mem_cons, List.not_mem_nil, or_false] at hc
      rcases hc with rfl | rfl | rfl <;> decide
    exact hhead c hspecial.1 hspecial.2.1 hspecial.2.2
  simp only [readAtom, if_neg hat, htake, if_true, h]

/-- The filter as the reader sees it: the two literals, each without the white space at the filter's end. -/
theorem splitDots_rangeFilter {high after : Bytes}
    (h : splitDots (trim (rangeFilter low high)) = some (before, after)) :
    readAtom (rangeFilter low high) =
      { compare := .between
        value := unquote before
        upper := unquote after
        openLower := trim before = []
        openUpper := trim after = [] } :=
  readAtom_dots (fun _ hc hquote hdot => head_rangeFilter low high hc hquote hdot) h

/-- Where the lower text has no two dots, the filter parts between the two literals. -/
theorem splitDots_between (h : splitDots low = none) (high : Bytes) : splitDots (trim (rangeFilter low high)) =
      some ((literally low).dropWhile isSpace, (literally high).rdropWhile isSpace) := by
  rw [rangeFilter, trim_around]
  rcases literally_cases low with ⟨hquoted, -⟩ | ⟨hplain, -, hnot⟩
  · have hfront : (quoted low).dropWhile isSpace = quoted low := List.dropWhile_cons_of_neg (by decide)
    rw [hquoted, hfront]
    apply splitDots_append (splitDots_quoted.mpr h)
    rw [last_quoted]
    decide
  · have hdot : Ch.dot ∉ low.dropWhile isSpace := fun hmem =>
      not_special hnot rfl ((List.dropWhile_suffix isSpace).subset hmem)
    rw [hplain]
    apply splitDots_append
    · rw [splitDots_eq_none]
      intro hdots
      exact hdot (hdots.subset List.mem_cons_self)
    · intro hlast
      exact hdot (List.mem_of_getLast? hlast)

theorem readAtom_between (h : splitDots low = none) (high : Bytes) : readAtom (rangeFilter low high) =
      { compare := .between
        value := unquote (literally low)
        upper := unquote (literally high)
        openLower := trim (literally low) = []
        openUpper := trim (literally high) = [] } := by
  rw [splitDots_rangeFilter (splitDots_between h high), trim_dropWhile, trim_rdropWhile,
    unquote_congr (trim_dropWhile (literally low)), unquote_congr (trim_rdropWhile (literally high))]

/-- What is read of an open end is empty. -/
theorem unquote_open {text : Bytes} (h : trim text = []) : unquote text = [] := by
  unfold unquote
  rw [h]
  rfl

/-- What the filter is read as, where both bounds are. -/
theorem parseFilter_spelled {high : Bytes} (hlow : Spelled low) (hhigh : Spelled high)
    (hdots : splitDots low = none) :
    parseFilter (rangeFilter low high) = [[{compare := .between, value := low, upper := high}]] := by
  rw [parseFilter_rangeFilter, readAtom_between hdots, (unquote_literally low).mpr hlow,
    (unquote_literally high).mpr hhigh]
  simp [hlow.closed, hhigh.closed]

theorem rangeBoundOf_between {high after : Bytes}
    (h : splitDots (trim (rangeFilter low high)) = some (before, after)) :
    rangeBoundOf (rangeFilter low high) false = .ok (unquote before) ∧
      rangeBoundOf (rangeFilter low high) true = .ok (unquote after) := by
  have hopen : ∀ text, (if decide (trim text = []) = true then ([] : Bytes) else unquote text) = unquote text := by
    intro text
    split
    · next hnil => exact (unquote_open (of_decide_eq_true hnil)).symm
    · rfl
  unfold rangeBoundOf
  rw [parseFilter_rangeFilter, splitDots_rangeFilter h]
  exact ⟨congrArg Except.ok (hopen before), congrArg Except.ok (hopen after)⟩

/-- The bounds are read as they were exactly where no quote is in them, where the white space at the ends of
each stands with an operator, and where the lower one has no two dots. -/
theorem rangeBounds_iff (low high : Bytes) :
    (rangeBoundOf (rangeFilter low high) false = .ok low ∧ rangeBoundOf (rangeFilter low high) true = .ok high) ↔
      Spelled low ∧ Spelled high ∧ ¬ [Ch.dot, Ch.dot] <:+: low := by
  rw [← splitDots_eq_none]
  by_cases hdots : splitDots low = none
  · obtain ⟨hlower, hupper⟩ := rangeBoundOf_between (splitDots_between hdots high)
    rw [hlower, hupper, unquote_congr (trim_dropWhile (literally low)),
        unquote_congr (trim_rdropWhile (literally high)),
      Except.ok.injEq, Except.ok.injEq, unquote_literally, unquote_literally]
    exact ⟨fun ⟨hl, hh⟩ => ⟨hl, hh, hdots⟩, fun ⟨hl, hh, _⟩ => ⟨hl, hh⟩⟩
  · refine iff_of_false ?_ fun h => hdots h.2.2
    rintro ⟨hlower, -⟩
    have hsome : splitDots (trim (rangeFilter low high)) ≠ none := by
      rw [Ne, splitDots_eq_none, not_not, rangeFilter, trim_around]
      exact ⟨(literally low).dropWhile isSpace, (literally high).rdropWhile isSpace, by simp⟩
    obtain ⟨⟨before, after⟩, hsplit⟩ := Option.ne_none_iff_exists'.mp hsome
    rw [(rangeBoundOf_between hsplit).1, Except.ok.injEq] at hlower
    -- what stands before the first two dots has none
    apply hdots
    rw [← hlower, splitDots_eq_none]
    intro hin
    exact splitDots_eq_none.mp (splitDots_some hsplit).2 (hin.trans (infix_unquote before))

end Agiru.Filter
