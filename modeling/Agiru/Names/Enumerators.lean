import Agiru.Library.Bytes

/-! The enumerators of an option type.

A member's text leaves its words, each with a capital first; a name that is taken already gets the member's ordinal
behind it, which is not looked up again. The names are distinct exactly where no such ordinal makes a name that an
earlier member has (`enumeratorNames_distinct_iff`). -/
namespace Agiru.Names
open Bytes

variable {members : List Bytes}
variable {name : Bytes} {i : Nat}

abbrev underscore : UInt8 := 95
abbrev percent : UInt8 := 37

def isUpper (c : UInt8) : Bool := 65 ≤ c && c ≤ 90

def isLower (c : UInt8) : Bool := 97 ≤ c && c ≤ 122

/-- `std::isalnum` in the C locale. -/
def isAlphanumeric (c : UInt8) : Bool := isUpper c || isLower c || isDigit c

/-- `std::toupper` in the C locale. -/
def upper (c : UInt8) : UInt8 := if isLower c then c - 32 else c

/-! ### Words -/

/-- The word that ends. -/
def ended (current : Bytes) : List Bytes := if current = [] then [] else [current]

def wordsFrom (current : Bytes) : Bytes → List Bytes
  | [] => ended current
  | c :: rest =>
    if isAlphanumeric c then wordsFrom (current ++ [c]) rest
    else if c = underscore && current ≠ [] then wordsFrom (current ++ [c]) rest
    else if c = percent then ended current ++ ascii "Percent" :: wordsFrom [] rest
    else ended current ++ wordsFrom [] rest

/-- `Words`. -/
def words (name : Bytes) : List Bytes := wordsFrom [] name

def capitalised : Bytes → Bytes
  | [] => []
  | c :: rest => upper c :: rest

/-- `Join`. -/
def join (words : List Bytes) : Bytes :=
  let out := words.flatMap capitalised
  if out.head?.any isDigit then underscore :: out else out

/-! ### Enumerators -/

/-- `EnumeratorName`. -/
def enumeratorName (optionMember : Bytes) : Bytes :=
  let name := join (words optionMember)
  if name = [] then ascii "Blank" else name

/-- A name that is taken gets the member's ordinal. -/
def numbered (names : List Bytes) (name : Bytes) : Bytes := if name ∈ names then name ++ natText names.length
    else name

def enumeratorNamesFrom (names : List Bytes) : List Bytes → List Bytes
  | [] => names
  | member :: members => enumeratorNamesFrom (names ++ [numbered names (enumeratorName member)]) members

/-- `EnumeratorNames`. -/
def enumeratorNames (members : List Bytes) : List Bytes := enumeratorNamesFrom [] members

/-! ### Identifiers -/

/-- What stands in an identifier. -/
def identifierPart (c : UInt8) : Bool := isAlphanumeric c || c = underscore

/-- What a name begins with: a capital, or an underscore before a digit. -/
def opens : Bytes → Bool
  | [] => false
  | c :: rest => isUpper c || (c = underscore && rest.head?.any isDigit)

/-- An identifier that is no keyword of C++: these begin with small letters. -/
structure Identifier (name : Bytes) : Prop where
  opens : opens name = true
  parts : ∀ c ∈ name, identifierPart c = true

theorem Identifier.ne_nil (h : Identifier name) : name ≠ [] := by
  rintro rfl
  exact absurd h.opens Bool.false_ne_true

theorem opens_append (h : opens name = true) (rest : Bytes) : opens (name ++ rest) = true := by
  match name, h with
  | [c], h =>
    simp only [opens, List.head?_nil, Option.any_none, Bool.and_false, Bool.or_false] at h
    simp [opens, h]
  | c :: d :: tail, h => exact h

theorem Identifier.append {rest : Bytes} (h : Identifier name) (hrest : ∀ c ∈ rest, identifierPart c = true) :
    Identifier (name ++ rest) :=
  ⟨opens_append h.opens rest, fun c hc => (List.mem_append.mp hc).elim (h.parts c) (hrest c)⟩

theorem identifierPart_natText (n : Nat) : ∀ c ∈ natText n, identifierPart c = true := by
  intro c hc
  simp [identifierPart, isAlphanumeric, isDigit_natText hc]

/-- A word: it begins with a letter or a digit. -/
structure Word (word : Bytes) : Prop where
  head : ∃ c rest, word = c :: rest ∧ isAlphanumeric c = true
  parts : ∀ c ∈ word, identifierPart c = true

theorem mem_ended {current word : Bytes} (h : word ∈ ended current) : word = current ∧ current ≠ [] := by
  unfold ended at h
  split at h
  · cases h
  · next hne => exact ⟨List.mem_singleton.mp h, hne⟩

theorem wordsFrom_word {current : Bytes} (hcurrent : current ≠ [] → Word current) (text : Bytes) :
    ∀ word ∈ wordsFrom current text, Word word := by
  have hended : ∀ {current : Bytes}, (current ≠ [] → Word current) → ∀ word ∈ ended current, Word word := by
    intro current h word hword
    obtain ⟨rfl, hne⟩ := mem_ended hword
    exact h hne
  have hsnoc : ∀ {current : Bytes} {c : UInt8}, (current ≠ [] → Word current) → identifierPart c = true →
      (current = [] → isAlphanumeric c = true) → Word (current ++ [c]) := by
    intro current c h hc hfirst
    by_cases hne : current = []
    · subst hne
      exact ⟨⟨c, [], rfl, hfirst rfl⟩, fun d hd => List.mem_singleton.mp hd ▸ hc⟩
    · obtain ⟨⟨d, rest, rfl, hd⟩, hparts⟩ := h hne
      refine ⟨⟨d, rest ++ [c], rfl, hd⟩, fun e he => ?_⟩
      rcases List.mem_append.mp he with he | he
      · exact hparts e he
      · exact List.mem_singleton.mp he ▸ hc
  induction text generalizing current with
  | nil => exact hended hcurrent
  | cons c rest ih =>
    unfold wordsFrom
    split
    · next hc => exact ih fun _ => hsnoc hcurrent (by simp [identifierPart, hc]) fun _ => hc
    · split
      · next hc =>
        simp only [Bool.and_eq_true, decide_eq_true_eq] at hc
        exact ih fun _ => hsnoc hcurrent (by simp [identifierPart, hc.1]) fun hnil => absurd hnil hc.2
      · split
        · intro word hword
          rcases List.mem_append.mp hword with hword | hword
          · exact hended hcurrent word hword
          · rcases List.mem_cons.mp hword with rfl | hword
            · exact ⟨⟨_, _, rfl, by decide⟩, List.all_eq_true.mp (by decide)⟩
            · exact ih (fun hne => absurd rfl hne) word hword
        · intro word hword
          rcases List.mem_append.mp hword with hword | hword
          · exact hended hcurrent word hword
          · exact ih (fun hne => absurd rfl hne) word hword

theorem upper_spec {c : UInt8} (h : isAlphanumeric c = true) :
    (isUpper (upper c) = true ∨ isDigit (upper c) = true) ∧ identifierPart (upper c) = true := by
  have hupper : isUpper (upper c) = true ∨ isDigit (upper c) = true := by
    simp only [isAlphanumeric, isUpper, isLower, isDigit, Bool.or_eq_true, Bool.and_eq_true, decide_eq_true_eq,
      UInt8.le_iff_toNat_le] at h ⊢
    unfold upper
    split
    · next hlower =>
      simp only [isLower, Bool.and_eq_true, decide_eq_true_eq, UInt8.le_iff_toNat_le] at hlower
      rw [UInt8.toNat_sub_of_le _ _ (UInt8.le_iff_toNat_le.mpr (by simp only [UInt8.reduceToNat] at hlower ⊢; omega))]
      simp only [UInt8.reduceToNat] at hlower ⊢
      omega
    · next hlower =>
      simp only [isLower, Bool.and_eq_true, decide_eq_true_eq, UInt8.le_iff_toNat_le] at hlower
      tauto
  refine ⟨hupper, ?_⟩
  rcases hupper with hc | hc <;> simp [identifierPart, isAlphanumeric, hc]

/-- Words that are put together begin with a capital or a digit. -/
theorem capitalised_spec {all : List Bytes} (h : ∀ word ∈ all, Word word) :
    (∀ c ∈ all.flatMap capitalised, identifierPart c = true) ∧
      ∀ c rest, all.flatMap capitalised = c :: rest → isUpper c = true ∨ isDigit c = true := by
  constructor
  · intro c hc
    obtain ⟨word, hword, hc⟩ := List.mem_flatMap.mp hc
    obtain ⟨⟨d, rest, rfl, hd⟩, hparts⟩ := h word hword
    rcases List.mem_cons.mp hc with rfl | hc
    · exact (upper_spec hd).2
    · exact hparts c (List.mem_cons_of_mem _ hc)
  · intro c rest hcons
    cases all with
    | nil => cases hcons
    | cons word others =>
      obtain ⟨⟨d, tail, rfl, hd⟩, -⟩ := h word List.mem_cons_self
      rw [List.flatMap_cons, capitalised, List.cons_append] at hcons
      obtain ⟨rfl, -⟩ := List.cons.inj hcons
      exact (upper_spec hd).1

theorem join_cons {all : List Bytes} {c : UInt8} {rest : Bytes} (h : all.flatMap capitalised = c :: rest) :
    join all = if isDigit c = true then underscore :: c :: rest else c :: rest := by
  simp [join, h]

theorem enumeratorName_identifier (member : Bytes) : Identifier (enumeratorName member) := by
  unfold enumeratorName
  obtain ⟨hparts, hhead⟩ := capitalised_spec (wordsFrom_word (fun hne => absurd rfl hne) member)
  change ∀ c ∈ (words member).flatMap capitalised, _ at hparts
  change ∀ c rest, (words member).flatMap capitalised = c :: rest → _ at hhead
  cases hout : (words member).flatMap capitalised with
  | nil =>
    rw [show join (words member) = [] by simp [join, hout]]
    exact ⟨rfl, List.all_eq_true.mp (by decide)⟩
  | cons c rest =>
    rw [hout] at hparts
    rw [join_cons hout]
    by_cases hdigit : isDigit c = true
    · rw [if_pos hdigit, if_neg (List.cons_ne_nil _ _)]
      refine ⟨by simp [opens, hdigit], fun d hd => ?_⟩
      rcases List.mem_cons.mp hd with rfl | hd
      · rfl
      · exact hparts d hd
    · rw [if_neg hdigit, if_neg (List.cons_ne_nil _ _)]
      exact ⟨by simp [opens, (hhead c rest hout).resolve_right hdigit], hparts⟩

/-! ### Distinct names -/

/-- The name of the member with an ordinal. -/
def own (members : List Bytes) (i : Nat) : Bytes := enumeratorName (members.getD i [])

/-- A member whose name an earlier one has, as its own or with its ordinal behind it. -/
inductive Repeated (members : List Bytes) : Nat → Prop
  | own {i j : Nat} (h : j < i) (hname : own members j = own members i) : Repeated members i
  | numbered {i j : Nat} (h : j < i) (hrepeated : Repeated members j)
      (hname : own members j ++ natText j = own members i) : Repeated members i

/-- One enumerator for each member, in order, and no two of them the same. -/
structure Enumerated (members names : List Bytes) : Prop where
  length : names.length = members.length
  named : ∀ i, i < members.length → names[i]? = some (own members i) ∨ names[i]? =
      some (own members i ++ natText i)
  identifiers : ∀ name ∈ names, Identifier name
  distinct : names.Nodup

/-- The names of the first members. -/
def namesOf (members : List Bytes) : Nat → List Bytes
  | 0 => []
  | i + 1 => namesOf members i ++ [numbered (namesOf members i) (own members i)]

theorem namesOf_length (members : List Bytes) (i : Nat) : (namesOf members i).length = i := by
  induction i with
  | zero => rfl
  | succ i ih => rw [namesOf, List.length_append, ih, List.length_singleton]

theorem enumeratorNamesFrom_eq (members : List Bytes) (rest : List Bytes) (i : Nat) (h : members.drop i = rest) :
    enumeratorNamesFrom (namesOf members i) rest = namesOf members (i + rest.length) := by
  induction rest generalizing i with
  | nil => rfl
  | cons member rest ih =>
    have hmember : members.getD i [] = member := by
      rw [List.getD_eq_getElem?_getD, ← List.head?_drop, h]
      rfl
    have hrest : members.drop (i + 1) = rest := by rw [← List.tail_drop, h, List.tail_cons]
    have hnext : namesOf members i ++ [numbered (namesOf members i) (enumeratorName member)] =
        namesOf members (i + 1) := by rw [namesOf, own, hmember]
    rw [enumeratorNamesFrom, hnext, ih (i + 1) hrest, List.length_cons, Nat.add_assoc, Nat.add_comm 1]

theorem enumeratorNames_eq (members : List Bytes) : enumeratorNames members = namesOf members members.length := by
  have h := enumeratorNamesFrom_eq members members 0 rfl
  rw [Nat.zero_add] at h
  exact h

theorem numbered_eq (members : List Bytes) (i : Nat) : numbered (namesOf members i) (own members i) =
    if own members i ∈ namesOf members i then own members i ++ natText i else own members i := by
  rw [numbered, namesOf_length]

theorem repeated_iff_exists : Repeated members i ↔
    ∃ j < i, own members j = own members i ∨ (Repeated members j ∧ own members j ++ natText j =
        own members i) := by
  constructor
  · intro h
    cases h with
    | own hj hname => exact ⟨_, hj, .inl hname⟩
    | numbered hj hrepeated hname => exact ⟨_, hj, .inr ⟨hrepeated, hname⟩⟩
  · rintro ⟨j, hj, hname | ⟨hrepeated, hname⟩⟩
    · exact .own hj hname
    · exact .numbered hj hrepeated hname

/-- The names that the first members have. -/
theorem mem_namesOf : name ∈ namesOf members i ↔
      ∃ j < i, own members j = name ∨ (Repeated members j ∧ own members j ++ natText j = name) := by
  induction i generalizing name with
  | zero => simp [namesOf]
  | succ i ih =>
    have hrepeated : own members i ∈ namesOf members i ↔ Repeated members i := ih.trans repeated_iff_exists.symm
    rw [namesOf, List.mem_append, List.mem_singleton, numbered_eq]
    constructor
    · rintro (hmem | rfl)
      · obtain ⟨j, hj, hname⟩ := ih.mp hmem
        exact ⟨j, Nat.lt_succ_of_lt hj, hname⟩
      · split
        · next hmem => exact ⟨i, Nat.lt_succ_self i, .inr ⟨hrepeated.mp hmem, rfl⟩⟩
        · exact ⟨i, Nat.lt_succ_self i, .inl rfl⟩
    · rintro ⟨j, hj, hname⟩
      rcases Nat.lt_succ_iff_lt_or_eq.mp hj with hj | rfl
      · exact .inl (ih.mpr ⟨j, hj, hname⟩)
      · rcases hname with rfl | ⟨h, rfl⟩
        · by_cases hmem : own members j ∈ namesOf members j
          · exact .inl hmem
          · exact .inr (if_neg hmem).symm
        · exact .inr (if_pos (hrepeated.mpr h)).symm

theorem repeated_iff : own members i ∈ namesOf members i ↔ Repeated members i :=
  mem_namesOf.trans repeated_iff_exists.symm

/-- The name that a member gets. -/
theorem namesOf_get {n : Nat} (h : i < n) :
    (namesOf members n)[i]? = some (numbered (namesOf members i) (own members i)) := by
  induction n with
  | zero => exact absurd h (Nat.not_lt_zero i)
  | succ n ih =>
    rw [namesOf]
    rcases Nat.lt_succ_iff_lt_or_eq.mp h with h | rfl
    · rw [List.getElem?_append_left (by rw [namesOf_length]; exact h), ih h]
    · rw [List.getElem?_append_right (by rw [namesOf_length]), namesOf_length, Nat.sub_self]
      rfl

theorem namesOf_nodup {n : Nat} : (namesOf members n).Nodup ↔
    ∀ i < n, Repeated members i → own members i ++ natText i ∉ namesOf members i := by
  induction n with
  | zero => simp [namesOf]
  | succ n ih =>
    have hlast : numbered (namesOf members n) (own members n) ∉ namesOf members n ↔
        (Repeated members n → own members n ++ natText n ∉ namesOf members n) := by
      rw [numbered_eq, ← repeated_iff]
      by_cases hmem : own members n ∈ namesOf members n
      · simp [hmem]
      · simp [hmem]
    rw [namesOf, List.nodup_append', ih, List.disjoint_singleton, hlast]
    constructor
    · rintro ⟨hbefore, -, hthis⟩ i hi
      rcases Nat.lt_succ_iff_lt_or_eq.mp hi with hi | rfl
      · exact hbefore i hi
      · exact hthis
    · intro h
      exact ⟨fun i hi => h i (Nat.lt_succ_of_lt hi), List.nodup_singleton _, h n (Nat.lt_succ_self n)⟩

theorem enumeratorNames_length (members : List Bytes) : (enumeratorNames members).length = members.length := by
  rw [enumeratorNames_eq, namesOf_length]

theorem enumeratorNames_named (hi : i < members.length) : (enumeratorNames members)[i]? = some (own members i) ∨
      (enumeratorNames members)[i]? = some (own members i ++ natText i) := by
  rw [enumeratorNames_eq, namesOf_get hi, numbered_eq]
  split
  · exact .inr rfl
  · exact .inl rfl

theorem enumeratorNames_identifier (members : List Bytes) : ∀ name ∈ enumeratorNames members, Identifier name := by
  intro name hname
  obtain ⟨i, hi, hget⟩ := List.getElem_of_mem hname
  have hsome : (enumeratorNames members)[i]? = some name := by rw [List.getElem?_eq_getElem hi, hget]
  rcases enumeratorNames_named (enumeratorNames_length members ▸ hi) with heq | heq
  · rw [Option.some.inj (hsome.symm.trans heq)]
    exact enumeratorName_identifier _
  · rw [Option.some.inj (hsome.symm.trans heq)]
    exact (enumeratorName_identifier _).append (identifierPart_natText i)

/-- **When the enumerators are distinct**: no member whose name is repeated gets, with its ordinal, a name that an
earlier member has. -/
theorem enumeratorNames_distinct_iff (members : List Bytes) : Enumerated members (enumeratorNames members) ↔
    ∀ i < members.length, Repeated members i → ∀ j < i, own members i ++ natText i ≠ own members j ∧
      (Repeated members j → own members i ++ natText i ≠ own members j ++ natText j) := by
  have hdistinct : (enumeratorNames members).Nodup ↔
      ∀ i < members.length, Repeated members i → ∀ j < i, own members i ++ natText i ≠ own members j ∧
        (Repeated members j → own members i ++ natText i ≠ own members j ++ natText j) := by
    rw [enumeratorNames_eq, namesOf_nodup]
    refine forall₂_congr fun i _ => imp_congr_right fun _ => ?_
    rw [mem_namesOf]
    constructor
    · intro h j hj
      exact ⟨fun hname => h ⟨j, hj, .inl hname.symm⟩, fun hrepeated hname => h ⟨j, hj, .inr ⟨hrepeated, hname.symm⟩⟩⟩
    · rintro h ⟨j, hj, hname | ⟨hrepeated, hname⟩⟩
      · exact (h j hj).1 hname.symm
      · exact (h j hj).2 hrepeated hname.symm
  exact ⟨fun h => hdistinct.mp h.distinct, fun h => ⟨enumeratorNames_length members,
    fun _ hi => enumeratorNames_named hi, enumeratorNames_identifier members, hdistinct.mpr h⟩⟩

/-- The second `A` is named as the first member is. -/
theorem enumerators_collide : ¬ Enumerated [ascii "A2", ascii "A", ascii "A"]
    (enumeratorNames [ascii "A2", ascii "A", ascii "A"]) := by
  intro h
  exact absurd h.distinct (by decide)

end Agiru.Names
