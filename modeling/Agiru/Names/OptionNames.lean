import Agiru.Names.Enumerators

/-! The names of option types, which are their members' names put together.

A name says nothing of where one member ends and the next begins: it leaves the enumerators undetermined but for no
members, and for one whose name no other members' names make (`option_name_determines_iff`). -/
namespace Agiru.Names
open Bytes

variable {members : List Bytes}

/-- The members' names, one behind the other. -/
def joined (members : List Bytes) : Bytes := (enumeratorNames members).flatten

abbrev readable : Nat := 48

/-- The hash that stands for the rest of a long name. -/
def hashed (name : Bytes) : UInt64 := name.foldl (fun hash c => (hash ^^^ c.toUInt64) * 1099511628211)
    14695981039346656037

/-- `OptionContentName`. -/
def optionContentName (members : List Bytes) : Bytes :=
  ascii "::agiru::options::Option" ++
    if readable < (joined members).length then
      (joined members).take readable ++ [underscore] ++ natText ((hashed (joined members)).toNat % 1000000007)
    else joined members

/-- The names put together are not shortened. -/
def Readable (members : List Bytes) : Prop := (joined members).length ≤ readable

instance (members : List Bytes) : Decidable (Readable members) := inferInstanceAs (Decidable (_ ≤ _))

/-- Cut before a capital, or before an underscore with a digit behind it, the name is twice the same. -/
def Unsplit (name : Bytes) : Prop :=
  ∀ k < name.length, 0 < k → opens (name.drop k) = true → name.take k = name.drop k

instance (name : Bytes) : Decidable (Unsplit name) := inferInstanceAs (Decidable (∀ k < name.length, _))

/-- No members, or one whose name is unsplit. -/
def Alone : List Bytes → Prop
  | [] => True
  | [member] => Unsplit (enumeratorName member)
  | _ => False

/-! ### The name of an identifier -/

theorem wordsFrom_parts {current : Bytes} (hne : current ≠ []) {text : Bytes}
    (h : ∀ c ∈ text, identifierPart c = true) : wordsFrom current text = [current ++ text] := by
  induction text generalizing current with
  | nil => rw [wordsFrom, ended, if_neg hne, List.append_nil]
  | cons c rest ih =>
    have hnext := @ih (current ++ [c]) (by simp) fun d hd => h d (List.mem_cons_of_mem _ hd)
    rw [List.append_assoc] at hnext
    have hc := h c List.mem_cons_self
    simp only [identifierPart, Bool.or_eq_true, decide_eq_true_eq] at hc
    unfold wordsFrom
    split
    · exact hnext
    · next halphanumeric => rw [if_pos (by simp [hc.resolve_left halphanumeric, hne]), hnext]; rfl

theorem upper_of_not_lower {c : UInt8} (h : isUpper c = true ∨ isDigit c = true) : upper c = c := by
  have hlower : ¬ isLower c = true := by
    simp only [isUpper, isLower, isDigit, Bool.and_eq_true, decide_eq_true_eq, UInt8.le_iff_toNat_le,
      UInt8.reduceToNat] at h ⊢
    omega
  rw [upper, if_neg hlower]

/-- A word that begins with a capital or a digit. -/
theorem join_words {c : UInt8} {rest : Bytes} (hc : isUpper c = true ∨ isDigit c = true)
    (h : ∀ d ∈ c :: rest, identifierPart d = true) :
    join (words (c :: rest)) = if isDigit c = true then underscore :: c :: rest else c :: rest := by
  have hwords : words (c :: rest) = [c :: rest] := by
    have halphanumeric : isAlphanumeric c = true := by
      rcases hc with hc | hc <;> simp [isAlphanumeric, hc]
    rw [words, wordsFrom, if_pos halphanumeric]
    exact wordsFrom_parts (by simp) fun d hd => h d (List.mem_cons_of_mem _ hd)
  have hout : (words (c :: rest)).flatMap capitalised = c :: rest := by
    rw [hwords, List.flatMap_singleton, capitalised, upper_of_not_lower hc]
  exact join_cons hout

/-- An enumerator's name is its own enumerator. -/
theorem enumeratorName_self {name : Bytes} (h : Identifier name) : enumeratorName name = name := by
  obtain ⟨hopens, hparts⟩ := h
  cases name with
  | nil => cases hopens
  | cons c rest =>
    simp only [opens, Bool.or_eq_true, Bool.and_eq_true, decide_eq_true_eq] at hopens
    rcases hopens with hupper | ⟨rfl, hdigit⟩
    · have hdigit : ¬ isDigit c = true := by
        simp only [isUpper, isDigit, Bool.and_eq_true, decide_eq_true_eq, UInt8.le_iff_toNat_le,
          UInt8.reduceToNat] at hupper ⊢
        omega
      rw [enumeratorName, join_words (.inl hupper) hparts, if_neg hdigit]
      exact if_neg (List.cons_ne_nil _ _)
    · obtain ⟨d, tail, rfl⟩ : ∃ d tail, rest = d :: tail := by
        cases rest with
        | nil => cases hdigit
        | cons d tail => exact ⟨d, tail, rfl⟩
      have hskip : words (underscore :: d :: tail) = words (d :: tail) := rfl
      rw [enumeratorName, hskip, join_words (.inr hdigit) fun e he => hparts e (List.mem_cons_of_mem _ he)]
      rw [if_pos (show isDigit d = true from hdigit)]
      exact if_neg (List.cons_ne_nil _ _)

/-! ### Short lists -/

theorem enumeratorNames_one (member : Bytes) : enumeratorNames [member] = [enumeratorName member] := rfl

theorem enumeratorNames_two {first second : Bytes} (h : enumeratorName first ≠ enumeratorName second) :
    enumeratorNames [first, second] = [enumeratorName first, enumeratorName second] := by
  have hmem : enumeratorName second ∉ [enumeratorName first] := fun hmem => h (List.mem_singleton.mp hmem).symm
  have hone : numbered [] (enumeratorName first) = enumeratorName first := rfl
  simp only [enumeratorNames, enumeratorNamesFrom, List.nil_append, hone, List.singleton_append]
  rw [numbered, if_neg hmem]

/-- The second enumerator is not the first. -/
theorem second_ne_first {first second : Bytes} {rest : List Bytes}
    (h : enumeratorNames members = first :: second :: rest) : first ≠ second := by
  have hlength : 1 < members.length := by
    rw [← enumeratorNames_length, h, List.length_cons, List.length_cons]
    omega
  rw [enumeratorNames_eq] at h
  have hfirst := @namesOf_get members 0 members.length (Nat.lt_of_succ_lt hlength)
  have hsecond := @namesOf_get members 1 members.length hlength
  rw [h] at hfirst hsecond
  obtain rfl : first = own members 0 := Option.some.inj hfirst
  obtain rfl : second = numbered [own members 0] (own members 1) := Option.some.inj hsecond
  unfold numbered
  split
  · next hmem =>
    intro heq
    rw [List.mem_singleton.mp hmem] at heq
    exact natText_ne_nil 1 (List.self_eq_append_right.mp heq)
  · next hmem => exact fun heq => hmem (List.mem_singleton.mpr heq.symm)

theorem identifier_flatten {name : Bytes} {names : List Bytes} (h : ∀ part ∈ name :: names, Identifier part) :
    Identifier (name :: names).flatten := by
  rw [List.flatten_cons]
  refine (h name List.mem_cons_self).append fun c hc => ?_
  obtain ⟨part, hpart, hc⟩ := List.mem_flatten.mp hc
  exact (h part (List.mem_cons_of_mem _ hpart)).parts c hc

/-- An identifier that is cut where another one opens. -/
theorem cut_identifier {name : Bytes} (h : Identifier name) {k : Nat} (hpos : 0 < k)
    (hopens : opens (name.drop k) = true) : Identifier (name.take k) ∧ Identifier (name.drop k) := by
  have hparts : ∀ c ∈ name.take k, identifierPart c = true := fun c hc => h.parts c (List.mem_of_mem_take hc)
  refine ⟨⟨?_, hparts⟩, hopens, fun c hc => h.parts c (List.mem_of_mem_drop hc)⟩
  obtain ⟨k, rfl⟩ := Nat.exists_eq_succ_of_ne_zero (Nat.ne_of_gt hpos)
  match name, h.opens with
  | c :: rest, hhead =>
    rw [List.take_succ_cons]
    simp only [opens, Bool.or_eq_true, Bool.and_eq_true, decide_eq_true_eq] at hhead ⊢
    refine hhead.imp_right (And.imp_right fun hdigit => ?_)
    cases k with
    | zero =>
      -- behind the underscore alone no name opens
      cases rest with
      | nil => cases hdigit
      | cons d tail =>
        have hd : isDigit d = true := hdigit
        simp only [List.drop_succ_cons, List.drop_zero, opens, Bool.or_eq_true, Bool.and_eq_true, decide_eq_true_eq,
          isUpper, UInt8.le_iff_toNat_le, UInt8.reduceToNat] at hopens
        simp only [isDigit, Bool.and_eq_true, decide_eq_true_eq, UInt8.le_iff_toNat_le, UInt8.reduceToNat] at hd
        rcases hopens with hopens | ⟨rfl, -⟩
        · omega
        · exact absurd hd (by decide)
    | succ k =>
      cases rest with
      | nil => cases hdigit
      | cons d tail => exact hdigit

/-! ### What a name determines -/

theorem optionContentName_eq_iff {others : List Bytes} (h : Readable members) (hothers : Readable others) :
    optionContentName members = optionContentName others ↔ joined members = joined others := by
  unfold optionContentName
  rw [if_neg (Nat.not_lt.mpr h), if_neg (Nat.not_lt.mpr hothers), List.append_right_inj]

/-- What is put together from two names or more is one name too. -/
theorem joined_alone (hne : members ≠ []) : enumeratorNames [joined members] = [joined members] := by
  obtain ⟨name, names, hnames⟩ : ∃ name names, enumeratorNames members = name :: names := by
    refine List.exists_cons_of_ne_nil fun hnil => hne (List.length_eq_zero_iff.mp ?_)
    rw [← enumeratorNames_length, hnil, List.length_nil]
  have hidentifier : Identifier (joined members) := by
    rw [joined, hnames]
    exact identifier_flatten (hnames ▸ enumeratorNames_identifier members)
  rw [enumeratorNames_one, enumeratorName_self hidentifier]

theorem alone_of_determined
    (h : ∀ others, joined members = joined others → enumeratorNames members = enumeratorNames others) :
    Alone members := by
  match members with
  | [] => trivial
  | [member] =>
    intro k hk hpos hopens
    by_contra hne
    obtain ⟨hbefore, hafter⟩ := cut_identifier (enumeratorName_identifier member) hpos hopens
    have hnames : enumeratorNames [(enumeratorName member).take k, (enumeratorName member).drop k] =
        [(enumeratorName member).take k, (enumeratorName member).drop k] := by
      rw [enumeratorNames_two (by rwa [enumeratorName_self hbefore, enumeratorName_self hafter]),
        enumeratorName_self hbefore, enumeratorName_self hafter]
    have heq := h [(enumeratorName member).take k, (enumeratorName member).drop k] (by
      rw [joined, joined, hnames, enumeratorNames_one]
      simp)
    rw [hnames, enumeratorNames_one] at heq
    exact absurd (congrArg List.length heq) (by simp)
  | first :: second :: rest =>
    have hone := joined_alone (List.cons_ne_nil first (second :: rest))
    have htext : joined [joined (first :: second :: rest)] = joined (first :: second :: rest) :=
      (congrArg List.flatten hone).trans List.flatten_singleton
    have heq := congrArg List.length (h [joined (first :: second :: rest)] htext.symm)
    rw [enumeratorNames_length, enumeratorNames_length] at heq
    simp at heq

theorem determined_of_alone (h : Alone members) (others : List Bytes)
    (heq : joined members = joined others) : enumeratorNames members = enumeratorNames others := by
  have hidentifiers := enumeratorNames_identifier others
  match members, h with
  | [], _ =>
    have hnil : ∀ name ∈ enumeratorNames others, name = [] := List.flatten_eq_nil_iff.mp heq.symm
    have hempty : enumeratorNames others = [] :=
      List.eq_nil_iff_forall_not_mem.mpr fun name hname => (hidentifiers name hname).ne_nil (hnil name hname)
    rw [hempty]
    rfl
  | [member], hunsplit =>
    have hunsplit : Unsplit (enumeratorName member) := hunsplit
    rw [joined, joined, enumeratorNames_one, List.flatten_singleton] at heq
    rw [enumeratorNames_one]
    match hnames : enumeratorNames others with
    | [] =>
      rw [hnames] at heq
      exact absurd heq (enumeratorName_identifier member).ne_nil
    | [name] => rw [heq, hnames, List.flatten_singleton]
    | first :: second :: rest =>
      rw [hnames] at heq hidentifiers
      rw [List.flatten_cons, List.flatten_cons] at heq
      have hfirst := (hidentifiers first List.mem_cons_self).ne_nil
      have hsecond := hidentifiers second (List.mem_cons_of_mem _ List.mem_cons_self)
      have hone := hunsplit first.length (by
        rw [heq, List.length_append, List.length_append]
        have := List.length_pos_iff.mpr hsecond.ne_nil
        omega) (List.length_pos_iff.mpr hfirst) (by
        rw [heq, List.drop_left]
        exact opens_append hsecond.opens _)
      rw [heq, List.take_left, List.drop_left] at hone
      cases rest with
      | nil => exact absurd (hone.trans (List.append_nil _)) (second_ne_first hnames)
      | cons third more =>
        have hthird := hidentifiers third (by simp)
        have hlength := List.length_pos_iff.mpr hthird.ne_nil
        have htwo := hunsplit (first.length + second.length) (by
          rw [heq, List.flatten_cons]
          simp only [List.length_append]
          omega) (by have := List.length_pos_iff.mpr hfirst; omega) (by
          rw [heq, ← List.append_assoc, ← List.length_append, List.drop_left, List.flatten_cons]
          exact opens_append hthird.opens _)
        rw [heq, ← List.append_assoc, ← List.length_append, List.take_left, List.drop_left] at htwo
        -- each cut leaves two equal halves, so nothing stands between them
        have hones := congrArg List.length hone
        have htwos := congrArg List.length htwo
        rw [List.length_append] at hones htwos
        have := List.length_pos_iff.mpr hsecond.ne_nil
        omega

/-- **What the name of an option type determines**: the enumerators of no members, and of one whose name is
unsplit; of two lists, those that are put together in another text, or from names of the same lengths. -/
theorem option_name_determines_iff {members : List Bytes} (h : Readable members) :
    ((∀ others, Readable others → optionContentName members = optionContentName others →
        enumeratorNames members = enumeratorNames others) ↔ Alone members) ∧
      ∀ others, Readable others →
        ((optionContentName members = optionContentName others → enumeratorNames members =
            enumeratorNames others) ↔
          joined members ≠ joined others ∨
            (enumeratorNames members).map List.length = (enumeratorNames others).map List.length) := by
  constructor
  · constructor
    · intro hdetermined
      refine alone_of_determined fun others heq => ?_
      have hothers : Readable others := by
        unfold Readable
        rw [← heq]
        exact h
      exact hdetermined others hothers ((optionContentName_eq_iff h hothers).mpr heq)
    · exact fun halone others hothers heq =>
        determined_of_alone halone others ((optionContentName_eq_iff h hothers).mp heq)
  · intro others hothers
    rw [optionContentName_eq_iff h hothers, List.eq_iff_flatten_eq]
    change (joined members = joined others → joined members = joined others ∧ _) ↔ _
    tauto

/-- No capital stands in the name but the first. -/
theorem option_name_determines_open : Alone [ascii "Open"] ∧ ∀ others, Readable others →
    optionContentName [ascii "Open"] = optionContentName others →
      enumeratorNames [ascii "Open"] = enumeratorNames others := by
  have halone : Alone [ascii "Open"] := by
    change Unsplit _
    decide
  exact ⟨halone, (option_name_determines_iff (show Readable [ascii "Open"] by decide)).1.mpr halone⟩

/-- Two members, and one that is named as both. -/
theorem option_name_shared : ¬ ∀ members others, Readable members → Readable others →
    optionContentName members = optionContentName others → enumeratorNames members = enumeratorNames others := by
  intro h
  exact absurd (h [ascii "Open", ascii "Closed"] [ascii "OpenClosed"] (by decide) (by decide) (by decide))
      (by decide)

end Agiru.Names
