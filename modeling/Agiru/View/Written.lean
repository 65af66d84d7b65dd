import Agiru.View.Text

/-! What the reader finds in a view that was written.

The names a view writes hold no character the reader looks for, so its sort fields and its
direction always come back as clauses of their own. A filter does where its text is
`Enclosed`: it closes what it opens, and neither closes the clause around it nor stands
with a comma outside of its own parentheses. -/
namespace Agiru.View
open Bytes Scan
open Ch

variable {table : TableDef}
variable {c : UInt8}

/-- A filter text that the reader finds whole: it has no white space at its ends, closes
what it opens, never closes the clause, and has no comma where it has closed its own
parentheses. The reader meets it two parentheses deep in a view and one deep in a clause. -/
structure Enclosed (text : Bytes) : Prop where
  trimmed : trim text = text
  level : level weight text = 0
  clause : Passes weight closes 2 text
  term : Passes weight (parts comma) 1 text

/-! ### Names -/

/-- The characters the reader looks for. -/
def special (c : UInt8) : Bool :=
  c = openParen || c = closeParen || c = comma || c = equals || c = doubleQuote ||
    isSpace c

theorem nameOf_number (table : TableDef) (no : FieldNo) :
    nameOf table false no = ascii "Field" ++ natText no := by
  unfold nameOf
  cases hfield : table.field no with
  | none => rfl
  | some field =>
    obtain ⟨-, rfl⟩ := TableDef.field_some hfield
    rfl

theorem special_digit (h : zero ≤ c ∧ c ≤ nine) : special c = false := by
  obtain ⟨hlow, hhigh⟩ := h
  rw [UInt8.le_iff_toNat_le] at hlow hhigh
  have hne : ∀ d : UInt8, d.toNat < 48 ∨ 57 < d.toNat → c ≠ d := by
    rintro d hd rfl
    have hzero : (zero).toNat = 48 := rfl
    have hnine : (nine).toNat = 57 := rfl
    omega
  have hspace : isSpace c = false := by
    have hthirteen : ¬ c ≤ 13 := by
      rw [UInt8.le_iff_toNat_le, Nat.not_le]
      exact Nat.lt_of_lt_of_le (by decide) hlow
    simp [isSpace, hthirteen, hne 32 (by decide)]
  simp [special, hspace, hne openParen (by decide), hne closeParen (by decide),
    hne comma (by decide), hne equals (by decide), hne doubleQuote (by decide)]

/-- No name a view writes holds one of them. -/
theorem special_name {no : FieldNo} (h : c ∈ nameOf table false no) : special c = false := by
  rw [nameOf_number, List.mem_append] at h
  rcases h with hfield | hdigits
  · have hall : ∀ c ∈ ascii "Field", special c = false := by decide +kernel
    exact hall c hfield
  · exact special_digit (natText_digit hdigits)

theorem weight_ordinary (h : special c = false) : weight c = 0 := by
  have hopen : c ≠ openParen := by
    rintro rfl
    cases h
  have hclose : c ≠ closeParen := by
    rintro rfl
    cases h
  rw [weight, if_neg hopen, if_neg hclose]

theorem closes_ordinary (h : special c = false) (depth : Int) : closes c depth = false := by
  have hclose : c ≠ closeParen := by
    rintro rfl
    cases h
  simp [closes, hclose]

theorem parts_ordinary (h : special c = false) (depth : Int) : parts comma c depth = false := by
  have hcomma : c ≠ comma := by
    rintro rfl
    cases h
  simp [parts, hcomma]

section Name
variable (table) (no : FieldNo)

theorem level_name : level weight (nameOf table false no) = 0 :=
  level_of_forall fun _ hc => weight_ordinary (special_name hc)

theorem closes_name (depth : Int) : Passes weight closes depth (nameOf table false no) :=
  passes_of_forall (fun _ hc => closes_ordinary (special_name hc)) depth

theorem parts_name (depth : Int) : Passes weight (parts comma) depth (nameOf table false no) :=
  passes_of_forall (fun _ hc => parts_ordinary (special_name hc)) depth

theorem name_ne_nil : nameOf table false no ≠ [] := by
  rw [nameOf_number]
  intro hnil
  cases hnil

theorem trim_name : trim (nameOf table false no) = nameOf table false no := by
  have hspace : ∀ c ∈ nameOf table false no, isSpace c = false := fun c hc => by
    have hspecial := special_name hc
    simp only [special, Bool.or_eq_false_iff] at hspecial
    exact hspecial.2
  exact trim_of_ends (fun c hc => hspace c (List.mem_of_mem_head? hc))
    fun c hc => hspace c (List.mem_of_mem_getLast? hc)

theorem unquoted_name : unquoted (nameOf table false no) = nameOf table false no := by
  unfold unquoted
  rw [trim_name]
  refine if_neg fun ⟨_, hfirst, _⟩ => ?_
  have hspecial := special_name (List.mem_of_mem_head? hfirst)
  cases hspecial

end Name

/-! ### Clauses -/

/-- A clause that closes what it opens is read, and the rest after it. -/
theorem clausesFrom_clause {view lead keyword inside : Bytes} (fuel : Nat)
    (hlead : ∀ c ∈ lead, isSpace c = true) (hne : keyword ≠ [])
    (hkeyword : ∀ c ∈ keyword, special c = false) (hinside : Passes weight closes 1 inside)
    (hlevel : level weight inside = 0) (rest : Bytes) :
    clausesFrom view (fuel + 1)
        (lead ++ (keyword ++ openParen :: (inside ++ closeParen :: rest))) =
      (clausesFrom view fuel rest).map fun clauses => {keyword, inside} :: clauses := by
  have hspaces : ∀ c ∈ keyword, isSpace c = false := fun c hc => by
    have hspecial := hkeyword c hc
    simp only [special, Bool.or_eq_false_iff] at hspecial
    exact hspecial.2
  have hopen : ∀ c ∈ keyword, decide (c ≠ openParen) = true := fun c hc => by
    rw [decide_eq_true_eq]
    rintro rfl
    cases hkeyword _ hc
  have hfront : (lead ++ (keyword ++ openParen :: (inside ++ closeParen :: rest))).dropWhile isSpace =
      keyword ++ openParen :: (inside ++ closeParen :: rest) := by
    rw [List.dropWhile_append_of_pos hlead]
    cases keyword with
    | nil => exact absurd rfl hne
    | cons c keyword =>
      rw [List.cons_append, List.dropWhile_cons_of_neg (by simp [hspaces c List.mem_cons_self])]
  have htrim : trim keyword = keyword :=
    trim_of_ends (fun c hc => hspaces c (List.mem_of_mem_head? hc))
      fun c hc => hspaces c (List.mem_of_mem_getLast? hc)
  have hclosed : closing weight closes 1 (inside ++ closeParen :: rest) = some (inside, rest) :=
    closing_stop hinside (by rw [hlevel]; rfl) rest
  rw [clausesFrom]
  simp only [hfront, List.append_eq_nil_iff, hne, false_and, if_false,
    List.dropWhile_append_of_pos hopen, List.takeWhile_append_of_pos hopen]
  rw [List.dropWhile_cons_of_neg (by simp), List.takeWhile_cons_of_neg (by simp)]
  simp only [hclosed, List.append_nil, htrim]

/-- The sort fields and the direction of a view, as its reader finds them. -/
def orderClauses (state : RecordState table) : List Clause :=
  [⟨ascii "VERSION", ascii "1"⟩,
    ⟨ascii "SORTING", joined ((sortNumbers (some state)).map (nameOf table false))⟩,
    ⟨ascii "ORDER", directionOf (some state)⟩]

def orderOf (state : RecordState table) : Bytes :=
  ascii "VERSION(1) SORTING(" ++ joined ((sortNumbers (some state)).map (nameOf table false)) ++
    ascii ") ORDER(" ++ directionOf (some state) ++ ascii ")"

theorem clausesFrom_order (state : RecordState table) (view : Bytes) (fuel : Nat) (rest : Bytes) :
    clausesFrom view (fuel + 3) (orderOf state ++ rest) =
      (clausesFrom view fuel rest).map fun clauses => orderClauses state ++ clauses := by
  have hsplit : orderOf state ++ rest = [] ++ (ascii "VERSION" ++ openParen :: (ascii "1" ++
      closeParen :: (ascii " " ++ (ascii "SORTING" ++ openParen ::
        (joined ((sortNumbers (some state)).map (nameOf table false)) ++ closeParen ::
          (ascii " " ++ (ascii "ORDER" ++ openParen ::
            (directionOf (some state) ++ closeParen :: rest)))))))) := by
    simp only [orderOf, List.append_assoc]
    rfl
  have hnames : Passes weight closes 1 (joined ((sortNumbers (some state)).map (nameOf table false))) ∧
      level weight (joined ((sortNumbers (some state)).map (nameOf table false))) = 0 :=
    passes_intercalate (by rfl) (by rfl)
      (List.forall_mem_map.mpr fun no _ => ⟨closes_name table no 1, level_name table no⟩)
  have hdirection : Passes weight closes 1 (directionOf (some state)) ∧
      level weight (directionOf (some state)) = 0 := by
    unfold directionOf
    split <;> decide
  rw [hsplit, clausesFrom_clause (fuel + 2) (by simp) (by decide +kernel) (by decide +kernel)
      (by decide +kernel) (by decide +kernel),
    clausesFrom_clause (fuel + 1) (by decide +kernel) (by decide +kernel) (by decide +kernel) hnames.1 hnames.2,
    clausesFrom_clause fuel (by decide +kernel) (by decide +kernel) (by decide +kernel) hdirection.1 hdirection.2]
  cases clausesFrom view fuel rest <;> rfl

/-! ### Terms -/

/-- What stands before the text of a filter. -/
def openOf (table : TableDef) (no : FieldNo) : Bytes := nameOf table false no ++ ascii "=FILTER("

theorem termOf_eq (filter : FieldFilter table) :
    termOf false filter = openOf table filter.field ++ (filter.text ++ [closeParen]) := by
  simp only [termOf, openOf, List.append_assoc]
  rfl

/-- It opens one parenthesis, and is passed. -/
theorem open_passes (table : TableDef) (no : FieldNo) :
    level weight (openOf table no) = 1 ∧ Passes weight closes 1 (openOf table no) ∧
      Passes weight (parts comma) 0 (openOf table no) := by
  have hopen : level weight (ascii "=FILTER(") = 1 ∧ Passes weight closes 1 (ascii "=FILTER(") ∧
      Passes weight (parts comma) 0 (ascii "=FILTER(") := by decide
  simp [openOf, level_name, closes_name, parts_name, hopen]

theorem term_passes {filter : FieldFilter table} (h : Enclosed filter.text) :
    level weight (termOf false filter) = 0 ∧ Passes weight closes 1 (termOf false filter) ∧
      Passes weight (parts comma) 0 (termOf false filter) := by
  obtain ⟨hlevel, hcloses, hparts⟩ := open_passes table filter.field
  have hend : level weight [closeParen] = -1 ∧ Passes weight closes 2 [closeParen] ∧
      Passes weight (parts comma) 1 [closeParen] := by decide
  simp [termOf_eq, hlevel, hcloses, hparts, h.level, h.clause, h.term, hend]

/-- The name of a term stands before its first equals sign. -/
theorem takeWhile_open (table : TableDef) (no : FieldNo) (rest : Bytes) :
    (openOf table no ++ rest).takeWhile (· ≠ equals) = nameOf table false no ∧
      (openOf table no ++ rest).dropWhile (· ≠ equals) = ascii "=FILTER(" ++ rest := by
  have hall : ∀ c ∈ nameOf table false no, decide (c ≠ equals) = true := fun c hc => by
    rw [decide_eq_true_eq]
    rintro rfl
    cases special_name hc
  rw [openOf, List.append_assoc, List.takeWhile_append_of_pos hall, List.dropWhile_append_of_pos hall]
  exact ⟨List.append_nil _, rfl⟩

/-- The filter of a term that was written is the text, trimmed. -/
theorem filterOf_open (table : TableDef) (no : FieldNo) (text : Bytes) :
    filterOf (openOf table no ++ (text ++ [closeParen])) = trim text := by
  have hvalue : trim (ascii "FILTER(" ++ (text ++ [closeParen])) =
      ascii "FILTER(" ++ (text ++ [closeParen]) := by
    refine trim_of_ends (fun c hc => ?_) fun c hc => ?_
    · cases hc
      rfl
    · rw [← List.append_assoc, List.getLast?_concat] at hc
      cases hc
      rfl
  have hdrop : (ascii "=FILTER(" ++ (text ++ [closeParen])).drop 1 =
      ascii "FILTER(" ++ (text ++ [closeParen]) := rfl
  have hopened : (ascii "FILTER(" ++ (text ++ [closeParen])).dropWhile (· ≠ openParen) =
      openParen :: (text ++ [closeParen]) := rfl
  unfold filterOf
  simp only [(takeWhile_open table no _).2, hdrop, hvalue, hopened, List.getLast?_concat, if_true, List.dropLast_concat]

/-! ### The fields of names -/

/-- The name a view writes is read as its field: no other field that stands before it, or
that the table finds by its name first, is named or captioned so. -/
def Nameable (table : TableDef) (no : FieldNo) : Prop :=
  ∀ f ∈ table.fields.find? fun f =>
    sameText f.name (nameOf table false no) || sameText f.caption (nameOf table false no), f.no = no

instance (table : TableDef) (no : FieldNo) : Decidable (Nameable table no) :=
  inferInstanceAs (Decidable (∀ f ∈ _, _))

theorem declared_number (table : TableDef) (test : FieldDef → Bool) :
    (declared table test).map (·.1) = (table.fields.find? test).map (·.no) := by
  have hfind : (table.fields.attach.find? fun f => test f.1).map (·.1) = table.fields.find? test := by
    have hmap := List.find?_map (f := Subtype.val) (p := test) (l := table.fields.attach)
    rw [List.attach_map_subtype_val] at hmap
    exact hmap.symm
  rw [declared, ← hfind, Option.map_map, Option.map_map]
  rfl

theorem readNumber_natText (n : Nat) : readNumber (natText n) = n := by
  have hall : (natText n).takeWhile isDigit = natText n :=
    List.takeWhile_eq_self_iff.mpr fun c hc => isDigit_natText hc
  rw [readNumber, hall, digitsValue_natText]

/-- A name a view writes is always read as a field: its own, where it is nameable. -/
theorem fieldOfView_name {no : FieldNo} (hno : (table.field no).isSome) :
    ∃ field, fieldOfView table (nameOf table false no) = .ok field ∧ (field.1 = no ↔ Nameable table no) := by
  have hnumber := declared_number table fun f =>
    sameText f.name (nameOf table false no) || sameText f.caption (nameOf table false no)
  unfold fieldOfView
  simp only [unquoted_name]
  cases hnamed : declared table fun f =>
      sameText f.name (nameOf table false no) || sameText f.caption (nameOf table false no) with
  | some field =>
    rw [hnamed, Option.map_some, eq_comm, Option.map_eq_some_iff] at hnumber
    obtain ⟨f, hf, hfno⟩ := hnumber
    refine ⟨field, rfl, fun heq g hg => ?_, fun hname => ?_⟩
    · rw [hf] at hg
      cases hg
      exact hfno.trans heq
    · exact hfno.symm.trans (hname f hf)
  | none =>
    rw [hnamed, Option.map_none, eq_comm, Option.map_eq_none_iff] at hnumber
    obtain ⟨f, hf⟩ := Option.isSome_iff_exists.mp hno
    obtain ⟨hmem, rfl⟩ := TableDef.field_some hf
    have hfirst : (ascii "Field").isPrefixOf (nameOf table false f.no) = true := by
      rw [nameOf_number, List.isPrefixOf_iff_prefix]
      exact List.prefix_append _ _
    have hdigits : (nameOf table false f.no).drop 5 = natText f.no := by
      rw [nameOf_number]
      rfl
    have hhead : (natText f.no).head?.any isDigit = true := by
      cases htext : natText f.no with
      | nil => exact absurd htext (natText_ne_nil _)
      | cons c rest => exact isDigit_natText (htext ▸ List.mem_cons_self)
    have hown := declared_number table fun g => g.no = f.no
    have hfind : table.fields.find? (fun g => g.no = f.no) = some f := by
      cases hfound : table.fields.find? fun g => g.no = f.no with
      | none => simpa using List.find?_eq_none.mp hfound f hmem
      | some g =>
        have hsame : g.no = f.no := by simpa using List.find?_some hfound
        rw [TableDef.field_no_injective (List.mem_of_find?_eq_some hfound) hmem hsame]
    rw [hfind] at hown
    obtain ⟨field, hfield, hfno⟩ := Option.map_eq_some_iff.mp hown
    refine ⟨field, ?_, fun _ g hg => ?_, fun _ => hfno⟩
    · simp only [hfirst, true_or, if_true, hdigits, hhead, readNumber_natText,
        if_neg (Nat.not_le.mpr (table.numbered f hmem)), hfield]
    · rw [hnumber] at hg
      cases hg

end Agiru.View
