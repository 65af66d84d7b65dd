import Agiru.XmlPort.Text

/-! What is read of what was written, in variable text.

Nothing marks a separator or a delimiter that a field holds: a record is read back when the record separator does
not begin in its line, and the delimiter in none of its fields; and, if the record separator does not overlap
itself, only then. A variable-text XmlPort reads what it wrote, where its texts keep clear of its separators. -/
namespace Agiru.XmlPort
open Bytes Occurs

variable {separators : XmlPortSeparators} {fields : List Bytes} {line text rest : Bytes}
variable {format : XmlPortFormat}

/-! ### Lines -/

/-- The line of a record. -/
def lineOf (separators : XmlPortSeparators) : List Bytes → Bytes
  | [] => []
  | [field] => separators.delimiter ++ field ++ separators.delimiter
  | field :: next :: rest => separators.delimiter ++ field ++ separators.delimiter ++
      (separators.field ++ lineOf separators (next :: rest))

/-- A field in its delimiters. -/
def delimited (separators : XmlPortSeparators) (text : Bytes) : Bytes :=
  separators.delimiter ++ text ++ separators.delimiter

theorem joined_map (out : XmlPortOutput) (hformat : out.format = .variableText) (fields : List Bytes) :
    out.joined (fields.map (delimited out.separators)) = lineOf out.separators fields := by
  induction fields with
  | nil => rfl
  | cons field fields ih =>
    cases fields with
    | nil => rfl
    | cons next rest =>
      simp only [List.map_cons, XmlPortOutput.joined, lineOf, hformat, if_true] at ih ⊢
      rw [ih]
      simp only [delimited, List.append_assoc]

theorem foldl_value (out : XmlPortOutput) (hformat : out.format = .variableText)
    (hrecord : out.inRecord = true) (fields : List Bytes) :
    fields.foldl (fun out text => out.value text 0) out =
      {out with fields := out.fields ++ fields.map (delimited out.separators)} := by
  induction fields generalizing out with
  | nil => simp
  | cons field fields ih =>
    have hvalue : out.value field 0 =
        {out with fields := out.fields ++ [delimited out.separators field]} := by
      simp only [XmlPortOutput.value, hformat, hrecord, if_true, delimited]
    have hrest := ih {out with fields := out.fields ++ [delimited out.separators field]} hformat hrecord
    rw [List.foldl_cons, hvalue, hrest]
    simp

theorem record_lines {out : XmlPortOutput} (hformat : out.format = .variableText)
    (fields : List Bytes) :
    (out.record fields).format = .variableText ∧ (out.record fields).separators = out.separators ∧
      (out.record fields).lines = out.lines ++ lineOf out.separators fields ++ out.separators.record := by
  rw [XmlPortOutput.record, foldl_value out.beginRecord hformat rfl]
  refine ⟨hformat, rfl, ?_⟩
  have hjoined := joined_map
    {out.beginRecord with fields := [] ++ fields.map (delimited out.separators)} hformat fields
  exact congrArg (fun line => out.lines ++ line ++ out.separators.record) hjoined

/-- The lines of records, each with the record separator after it. -/
theorem written_eq (separators : XmlPortSeparators) (records : List (List Bytes)) :
    written separators records = records.flatMap fun fields => lineOf separators fields ++ separators.record := by
  suffices h : ∀ out : XmlPortOutput, out.format = .variableText → out.separators = separators →
      (records.foldl XmlPortOutput.record out).lines =
        out.lines ++ records.flatMap fun fields => lineOf separators fields ++ separators.record by
    exact h _ rfl rfl
  intro out hformat hseparators
  induction records generalizing out with
  | nil => simp
  | cons fields records ih =>
    obtain ⟨hformat', hseparators', hlines⟩ := record_lines hformat fields
    rw [List.foldl_cons, ih _ hformat' (hseparators'.trans hseparators), hlines, hseparators]
    simp only [List.flatMap_cons, List.append_assoc]

/-! ### Reading records -/

theorem cut_length {pattern before after : Bytes} (hpattern : pattern ≠ [])
    (h : cut pattern text = some (before, after)) : after.length < text.length := by
  have hlength := congrArg List.length (cut_spec h).1
  have hpos := List.length_pos_iff.mpr hpattern
  simp only [List.length_append] at hlength
  omega

theorem readTextRecord_next {next : Bytes} {separator : Bytes}
    (h : readTextRecord text separator = (line, some next)) : next.length < text.length := by
  unfold readTextRecord at h
  split at h
  · rename_i before after hcut
    obtain ⟨-, hnext⟩ := Prod.mk.inj h
    obtain rfl := Option.some.inj hnext
    split at hcut
    · cases hcut
    · exact cut_length ‹_› hcut
  · split at h
    · rename_i before after hcut
      obtain ⟨-, hnext⟩ := Prod.mk.inj h
      obtain rfl := Option.some.inj hnext
      split at hcut
      · exact cut_length (List.cons_ne_nil _ _) hcut
      · cases hcut
    · cases h

theorem parseLinesFrom_fuel {fuel fuel' : Nat} (h : text.length < fuel)
    (h' : text.length < fuel') : parseLinesFrom format separators fuel text =
      parseLinesFrom format separators fuel' text := by
  induction fuel generalizing text fuel' with
  | zero => exact absurd h (Nat.not_lt_zero _)
  | succ fuel ih =>
    cases fuel' with
    | zero => exact absurd h' (Nat.not_lt_zero _)
    | succ fuel' =>
      cases hread : readTextRecord text separators.record with
      | mk line next =>
      simp only [parseLinesFrom, hread]
      split
      · rfl
      · congr 1
        cases next with
        | none => rfl
        | some next =>
          have hlt := readTextRecord_next hread
          exact ih (Nat.lt_of_lt_of_le hlt (Nat.le_of_lt_succ h))
            (Nat.lt_of_lt_of_le hlt (Nat.le_of_lt_succ h'))

/-- A record that its separator is found after. -/
theorem parseLines_cut (hrecord : separators.record ≠ []) (h : cut separators.record text = some (line, rest)) :
    parseLines format separators text =
      fieldsOf format separators (withoutReturn line) :: parseLines format separators rest := by
  have hread : readTextRecord text separators.record = (withoutReturn line, some rest) := by
    rw [readTextRecord, if_neg hrecord, h]
  rw [parseLines, parseLinesFrom, hread]
  simp only [reduceCtorEq, decide_false, Bool.and_false, Bool.false_eq_true, if_false, Option.elim_some]
  congr 1
  exact parseLinesFrom_fuel (cut_length hrecord h) (Nat.lt_succ_self _)

theorem parseLines_nil (hrecord : separators.record ≠ []) : parseLines format separators [] = [] := by
  have hread : readTextRecord [] separators.record = ([], none) := by
    have hline : (if separators.record = crlf then cut [lineFeed] [] else none) = none := by
      split <;> rfl
    rw [readTextRecord, if_neg hrecord, cut, if_neg hrecord]
    dsimp only
    rw [hline]
    rfl
  rw [parseLines, parseLinesFrom, hread]
  rfl

/-- A text before a record separator is read as one record, if the separator does not begin in
it, and as two or more otherwise. -/
theorem parseLines_append (format : XmlPortFormat) (hrecord : separators.record ≠ [])
    (hborder : Unbordered separators.record) (line rest : Bytes) :
    ∃ records, parseLines format separators (line ++ separators.record ++ rest) =
        records ++ parseLines format separators rest ∧
      (Ends separators.record line ∧ records = [fieldsOf format separators (withoutReturn line)] ∨
        2 ≤ records.length) := by
  induction hlength : line.length using Nat.strong_induction_on generalizing line with
  | _ length ih =>
    subst hlength
    rcases hborder.cut line rest with hends | ⟨before, between, hline, hcut⟩
    · exact ⟨[_], parseLines_cut hrecord (hends.cut rest), .inl ⟨hends, rfl⟩⟩
    · have hlt : between.length < line.length := by
        have hpos := List.length_pos_iff.mpr hrecord
        rw [hline, List.length_append, List.length_append]
        omega
      obtain ⟨records, hparse, hcase⟩ := ih between.length hlt between rfl
      refine ⟨fieldsOf format separators (withoutReturn before) :: records, ?_, .inr ?_⟩
      · rw [parseLines_cut hrecord hcut, hparse]
        rfl
      · rcases hcase with ⟨-, rfl⟩ | hlong
        · exact Nat.le_refl 2
        · exact Nat.le_succ_of_le hlong

/-! ### Reading fields -/

theorem readQuotedField_next {field next : Bytes} (hfield : separators.field ≠ [])
    (h : readQuotedField line separators = some (field, some next)) : next.length < line.length := by
  unfold readQuotedField at h
  split at h
  · cases h
  · split at h
    · cases h
    · rename_i field' after hcut
      obtain ⟨-, hnext⟩ := Prod.mk.inj (Option.some.inj h)
      obtain ⟨⟨before, next'⟩, hcutField, rfl⟩ := Option.map_eq_some_iff.mp hnext
      have hafter := cut_length hfield hcutField
      have hlength := congrArg List.length (cut_spec hcut).1
      simp only [List.length_append, List.length_drop] at hlength
      dsimp only
      omega

theorem readTextFieldsFrom_fuel {fuel fuel' : Nat} (hfield : separators.field ≠ [])
    (h : line.length < fuel) (h' : line.length < fuel') :
    readTextFieldsFrom separators fuel line = readTextFieldsFrom separators fuel' line := by
  induction fuel generalizing line fuel' with
  | zero => exact absurd h (Nat.not_lt_zero _)
  | succ fuel ih =>
    cases fuel' with
    | zero => exact absurd h' (Nat.not_lt_zero _)
    | succ fuel' =>
      simp only [readTextFieldsFrom]
      split
      · rename_i field next hread
        congr 1
        cases next with
        | none => rfl
        | some next =>
          have hlt := readQuotedField_next hfield hread
          exact ih (Nat.lt_of_lt_of_le hlt (Nat.le_of_lt_succ h))
            (Nat.lt_of_lt_of_le hlt (Nat.le_of_lt_succ h'))
      · split
        · rename_i field next hcut
          have hlt := cut_length hfield hcut
          congr 1
          exact ih (Nat.lt_of_lt_of_le hlt (Nat.le_of_lt_succ h))
            (Nat.lt_of_lt_of_le hlt (Nat.le_of_lt_succ h'))
        · rfl

theorem readTextFields_eq (hfield : separators.field ≠ []) (line : Bytes) :
    readTextFields line separators = match readQuotedField line separators with
      | some (field, next) => field :: next.elim [] fun rest => readTextFields rest separators
      | none =>
        match cut separators.field line with
        | some (field, next) => field :: readTextFields next separators
        | none => [line] := by
  rw [readTextFields, readTextFieldsFrom]
  cases hread : readQuotedField line separators with
  | some quoted =>
    obtain ⟨field, next⟩ := quoted
    dsimp only
    congr 1
    cases next with
    | none => rfl
    | some next => exact readTextFieldsFrom_fuel hfield (readQuotedField_next hfield hread) (Nat.lt_succ_self _)
  | none =>
    dsimp only
    cases hcut : cut separators.field line with
    | some parts =>
      dsimp only
      congr 1
      exact readTextFieldsFrom_fuel hfield (cut_length hfield hcut) (Nat.lt_succ_self _)
    | none => rfl

theorem readTextFields_ne_nil (hfield : separators.field ≠ []) (line : Bytes) :
    readTextFields line separators ≠ [] := by
  rw [readTextFields_eq hfield]
  split
  · exact List.cons_ne_nil _ _
  · split <;> exact List.cons_ne_nil _ _

/-- A field that was written is read back up to its first delimiter. -/
theorem readQuotedField_written (hdelimiter : separators.delimiter ≠ []) (field rest : Bytes) :
    (Ends separators.delimiter field ∧
      readQuotedField (separators.delimiter ++ field ++ separators.delimiter ++ rest) separators =
        some (field, (cut separators.field rest).map Prod.snd)) ∨
    (¬ Ends separators.delimiter field ∧ ∃ other next,
      readQuotedField (separators.delimiter ++ field ++ separators.delimiter ++ rest) separators =
        some (other, next) ∧ other.length < field.length) := by
  have hstart : separators.delimiter.isPrefixOf
      (separators.delimiter ++ (field ++ separators.delimiter ++ rest)) = true :=
    List.isPrefixOf_iff_prefix.mpr (List.prefix_append _ _)
  have hassoc : separators.delimiter ++ field ++ separators.delimiter ++ rest =
      separators.delimiter ++ (field ++ separators.delimiter ++ rest) := by
    simp only [List.append_assoc]
  rw [hassoc, readQuotedField, hstart, List.drop_left]
  simp only [hdelimiter, decide_false, Bool.not_true, Bool.or_self, Bool.false_eq_true, if_false]
  by_cases hends : Ends separators.delimiter field
  · rw [hends.cut rest]
    exact .inl ⟨hends, rfl⟩
  · obtain ⟨before, after, hcut, hlt⟩ := cut_of_not_ends hends rest
    rw [hcut]
    exact .inr ⟨hends, before, _, rfl, hlt⟩

/-- A line is read back if and only if the delimiter begins in none of its fields. -/
theorem readTextFields_lineOf (hdelimiter : separators.delimiter ≠ []) (hfield : separators.field ≠ [])
    (hne : fields ≠ []) : readTextFields (lineOf separators fields) separators = fields ↔
      ∀ field ∈ fields, Ends separators.delimiter field := by
  induction fields with
  | nil => exact absurd rfl hne
  | cons field fields ih =>
    have hother {other : Bytes} {others : List Bytes} (hlt : other.length < field.length) :
        other :: others ≠ field :: fields := by
      intro heq
      rw [(List.cons.inj heq).1] at hlt
      exact Nat.lt_irrefl _ hlt
    rw [List.forall_mem_cons]
    cases fields with
    | nil =>
      have hread := readQuotedField_written hdelimiter field []
      rw [List.append_nil] at hread
      rw [lineOf, readTextFields_eq hfield]
      rcases hread with ⟨hends, hread⟩ | ⟨hends, other, next, hread, hlt⟩
      · rw [hread, cut, if_neg hfield]
        exact iff_of_true rfl ⟨hends, (by intro other hmem; cases hmem)⟩
      · rw [hread]
        exact iff_of_false (hother hlt) fun h => hends h.1
    | cons next rest =>
      rw [lineOf, readTextFields_eq hfield]
      rcases readQuotedField_written hdelimiter field (separators.field ++ lineOf separators (next :: rest))
        with ⟨hends, hread⟩ | ⟨hends, other, next', hread, hlt⟩
      · rw [hread, cut_begins (List.prefix_append _ _), List.drop_left]
        simp only [Option.map_some, Option.elim_some, List.cons.injEq, true_and]
        rw [ih (List.cons_ne_nil _ _)]
        exact (and_iff_right hends).symm
      · rw [hread]
        exact iff_of_false (hother hlt) fun h => hends h.1

/-- A line that has lost its last character is not read back. -/
theorem readTextFields_dropLast (hdelimiter : separators.delimiter ≠ [])
    (hfield : separators.field ≠ []) (hne : fields ≠ []) :
    readTextFields (lineOf separators fields).dropLast separators ≠ fields := by
  induction fields with
  | nil => exact absurd rfl hne
  | cons field fields ih =>
    cases fields with
    | nil =>
      rw [lineOf, List.dropLast_append_of_ne_nil hdelimiter, readTextFields_eq hfield]
      intro heq
      have hshort : separators.delimiter.dropLast.length < separators.delimiter.length := by
        rw [List.length_dropLast]
        exact Nat.sub_lt (List.length_pos_iff.mpr hdelimiter) Nat.one_pos
      split at heq
      · -- A delimiter that is left to close the field begins in it.
        rename_i other next hread
        obtain ⟨rfl, -⟩ := List.cons.inj heq
        unfold readQuotedField at hread
        split at hread
        · cases hread
        · rw [List.append_assoc, List.drop_left] at hread
          split at hread
          · cases hread
          · rename_i before after hcut
            obtain ⟨rfl, -⟩ := Prod.mk.inj (Option.some.inj hread)
            have hlength := congrArg List.length (cut_spec hcut).1
            simp only [List.length_append] at hlength
            omega
      · split at heq
        · exact readTextFields_ne_nil hfield _ (List.cons.inj heq).2
        · obtain ⟨hsame, -⟩ := List.cons.inj heq
          have hlength := congrArg List.length hsame
          have hpos := List.length_pos_iff.mpr hdelimiter
          simp only [List.length_append] at hlength
          omega
    | cons next rest =>
      have hnil : separators.field ++ lineOf separators (next :: rest) ≠ [] := by
        simp [hfield]
      have hnilLine : lineOf separators (next :: rest) ≠ [] := by
        cases rest <;> simp [lineOf, hdelimiter]
      rw [lineOf, List.dropLast_append_of_ne_nil hnil, List.dropLast_append_of_ne_nil hnilLine,
        readTextFields_eq hfield]
      rcases readQuotedField_written hdelimiter field
          (separators.field ++ (lineOf separators (next :: rest)).dropLast)
        with ⟨hends, hread⟩ | ⟨hends, other, next', hread, hlt⟩
      · rw [hread, cut_begins (List.prefix_append _ _), List.drop_left]
        simp only [Option.map_some, Option.elim_some]
        intro heq
        exact ih (List.cons_ne_nil _ _) (List.cons.inj heq).2
      · rw [hread]
        intro heq
        rw [(List.cons.inj heq).1] at hlt
        exact Nat.lt_irrefl _ hlt

theorem lineOf_getLast (hdelimiter : separators.delimiter ≠ []) (hne : fields ≠ []) :
    (lineOf separators fields).getLast? = separators.delimiter.getLast? := by
  induction fields with
  | nil => exact absurd rfl hne
  | cons field fields ih =>
    cases fields with
    | nil => rw [lineOf, List.getLast?_append_of_ne_nil _ hdelimiter]
    | cons next rest =>
      have hnilLine : lineOf separators (next :: rest) ≠ [] := by
        cases rest <;> simp [lineOf, hdelimiter]
      rw [lineOf, List.getLast?_append_of_ne_nil _ (by simp [hnilLine]),
        List.getLast?_append_of_ne_nil _ hnilLine, ih (List.cons_ne_nil _ _)]

/-! ### Records -/

/-- A record that is read back. -/
structure ReadsBack (separators : XmlPortSeparators) (fields : List Bytes) : Prop where
  nonempty : fields ≠ []
  line : Ends separators.record (lineOf separators fields)
  delimiter : separators.delimiter.getLast? ≠ some Ch.carriageReturn
  texts : ∀ field ∈ fields, Ends separators.delimiter field

/-- What is read of the line of a record, once it is cut out. -/
theorem fieldsOf_lineOf (hdelimiter : separators.delimiter ≠ []) (hfield : separators.field ≠ [])
    (fields : List Bytes) :
    fieldsOf .variableText separators (withoutReturn (lineOf separators fields)) = fields ↔
      fields ≠ [] ∧ separators.delimiter.getLast? ≠ some Ch.carriageReturn ∧
        ∀ field ∈ fields, Ends separators.delimiter field := by
  have hformat (line : Bytes) : fieldsOf .variableText separators line = readTextFields line separators := by
    simp [fieldsOf, hfield]
  rw [hformat]
  by_cases hne : fields = []
  · subst hne
    exact iff_of_false (readTextFields_ne_nil hfield _) fun h => h.1 rfl
  rw [withoutReturn, lineOf_getLast hdelimiter hne]
  by_cases hreturn : separators.delimiter.getLast? = some Ch.carriageReturn
  · rw [if_pos hreturn]
    exact iff_of_false (readTextFields_dropLast hdelimiter hfield hne) fun h => h.2.1 hreturn
  · rw [if_neg hreturn, readTextFields_lineOf hdelimiter hfield hne]
    exact ⟨fun h => ⟨hne, hreturn, h⟩, fun h => h.2.2⟩

theorem parseLines_written (hdelimiter : separators.delimiter ≠ []) (hfield : separators.field ≠ [])
    (hrecord : separators.record ≠ []) {records : List (List Bytes)}
    (h : ∀ fields ∈ records, ReadsBack separators fields) :
    parseLines .variableText separators (written separators records) = records := by
  rw [written_eq]
  induction records with
  | nil => exact parseLines_nil hrecord
  | cons fields records ih =>
    obtain ⟨hback, hrest⟩ := List.forall_mem_cons.mp h
    rw [List.flatMap_cons, parseLines_cut hrecord (hback.line.cut _), ih hrest,
      (fieldsOf_lineOf hdelimiter hfield fields).mpr ⟨hback.nonempty, hback.delimiter, hback.texts⟩]

/-- Each record separator that was written ends a record, at least. -/
theorem length_le_parseLines (hrecord : separators.record ≠ []) (hborder : Unbordered separators.record)
    (records : List (List Bytes)) :
    records.length ≤ (parseLines .variableText separators
      (records.flatMap fun fields => lineOf separators fields ++ separators.record)).length := by
  induction records with
  | nil => exact Nat.zero_le _
  | cons fields records ih =>
    obtain ⟨read, hparse, hcase⟩ := parseLines_append .variableText hrecord hborder
      (lineOf separators fields)
      (records.flatMap fun fields => lineOf separators fields ++ separators.record)
    rw [List.flatMap_cons, hparse, List.length_append, List.length_cons]
    rcases hcase with ⟨-, rfl⟩ | hlong
    · rw [List.length_singleton]
      omega
    · omega

theorem readsBack_of_parseLines (hdelimiter : separators.delimiter ≠ []) (hfield : separators.field ≠ [])
    (hrecord : separators.record ≠ []) (hborder : Unbordered separators.record)
    {records : List (List Bytes)}
    (h : parseLines .variableText separators (written separators records) = records) :
    ∀ fields ∈ records, ReadsBack separators fields := by
  rw [written_eq] at h
  induction records with
  | nil => nofun
  | cons fields records ih =>
    obtain ⟨read, hparse, hcase⟩ := parseLines_append .variableText hrecord hborder
      (lineOf separators fields)
      (records.flatMap fun fields => lineOf separators fields ++ separators.record)
    have hcount := length_le_parseLines hrecord hborder records
    rw [List.flatMap_cons, hparse] at h
    have hlength := congrArg List.length h
    rw [List.length_append, List.length_cons] at hlength
    rcases hcase with ⟨hends, rfl⟩ | hlong
    · obtain ⟨hread, hrest⟩ := List.cons.inj h
      obtain ⟨hne, hreturn, htexts⟩ := (fieldsOf_lineOf hdelimiter hfield fields).mp hread
      exact List.forall_mem_cons.mpr ⟨⟨hne, hends, hreturn, htexts⟩, ih hrest⟩
    · omega

/-! ### Entering and leaving -/

theorem readFields_eq (lines : List (List Bytes)) {fields : List Bytes} {line limit field : Nat}
    (hline : lines[line]? = some fields) (hfield : field ≤ fields.length)
    (hlimit : fields.length - field < limit) :
    XmlPortInput.readFields limit {lines, line, field, depth := 2} =
      (fields.drop field, {lines, line, field := fields.length, depth := 2}) := by
  induction limit generalizing field with
  | zero => exact absurd hlimit (Nat.not_lt_zero _)
  | succ limit ih =>
    have hentered : XmlPortInput.enter {lines, line, field, depth := 2} =
        if fields.length ≤ field then none else some {lines, line, field, depth := 3} := by
      simp [XmlPortInput.enter, hline]
    rw [XmlPortInput.readFields, hentered]
    by_cases hend : fields.length ≤ field
    · obtain rfl := Nat.le_antisymm hfield hend
      rw [if_pos hend, List.drop_length]
    · have hlt := Nat.lt_of_not_le hend
      have hleft : XmlPortInput.leave {lines, line, field, depth := 3} =
          {lines, line, field := field + 1, depth := 2} := rfl
      have htext : XmlPortInput.text {lines, line, field, depth := 3} = fields[field] := by
        simp [XmlPortInput.text, hline, List.getElem?_eq_getElem hlt]
      rw [if_neg hend]
      dsimp only
      rw [hleft, ih hlt (by omega), htext, List.drop_eq_getElem_cons hlt]

theorem readRecords_eq (lines : List (List Bytes)) {line limit field : Nat}
    (hline : line ≤ lines.length) (hlimit : lines.length - line < limit) :
    XmlPortInput.readRecords limit {lines, line, field, depth := 1} = lines.drop line := by
  induction limit generalizing line field with
  | zero => exact absurd hlimit (Nat.not_lt_zero _)
  | succ limit ih =>
    have hentered : XmlPortInput.enter {lines, line, field, depth := 1} =
        if lines.length ≤ line then none else some {lines, line, field := 0, depth := 2} := by
      simp [XmlPortInput.enter]
    rw [XmlPortInput.readRecords, hentered]
    by_cases hend : lines.length ≤ line
    · rw [if_pos hend, List.drop_eq_nil_of_le hend]
    · have hlt := Nat.lt_of_not_le hend
      have hget : lines[line]? = some lines[line] := List.getElem?_eq_getElem hlt
      have hfields := readFields_eq lines hget (Nat.zero_le _) (Nat.lt_succ_self _)
      have hleft : XmlPortInput.leave {lines, line, field := lines[line].length, depth := 2} =
          {lines, line := line + 1, field := lines[line].length, depth := 1} := rfl
      rw [if_neg hend]
      simp only [hget, Option.getD_some]
      rw [Nat.sub_zero] at hfields
      rw [hfields]
      dsimp only
      rw [hleft, ih hlt (by omega), List.drop_zero, List.drop_eq_getElem_cons hlt]

/-- A caller reads the lines that were parsed. -/
theorem records_eq (input : XmlPortInput) (hdepth : input.depth = 0) (hline : input.line = 0) :
    input.records = input.lines := by
  obtain ⟨lines, line, field, depth⟩ := input
  obtain rfl : depth = 0 := hdepth
  obtain rfl : line = 0 := hline
  have hentered : XmlPortInput.enter {lines, line := 0, field, depth := 0} =
      some {lines, line := 0, field, depth := 1} := rfl
  rw [XmlPortInput.records, hentered]
  exact readRecords_eq lines (Nat.zero_le _) (Nat.lt_succ_self _)

/-! ### The round trip -/

/-- The records that are read of the lines that were written. -/
def readBack (separators : XmlPortSeparators) (records : List (List Bytes)) : List (List Bytes) :=
  (XmlPortInput.load (written separators records) .variableText separators).records

theorem readBack_eq (separators : XmlPortSeparators) (records : List (List Bytes)) :
    readBack separators records = parseLines .variableText separators (written separators records) :=
  records_eq _ rfl rfl

/-- The records that were written are read back if each has a field, its line has no record
separator that begins in it, its fields no delimiter, and the delimiter no `\r` at its end; and
only then, where the record separator does not overlap itself. -/
theorem readBack_written (separators : XmlPortSeparators) (hdelimiter : separators.delimiter ≠ [])
    (hfield : separators.field ≠ []) (hrecord : separators.record ≠ [])
    (records : List (List Bytes)) :
    ((∀ fields ∈ records, ReadsBack separators fields) → readBack separators records = records) ∧
      (Unbordered separators.record → readBack separators records = records →
        ∀ fields ∈ records, ReadsBack separators fields) := by
  rw [readBack_eq]
  exact ⟨parseLines_written hdelimiter hfield hrecord,
    fun hborder h => readsBack_of_parseLines hdelimiter hfield hrecord hborder h⟩

/-- A comma, quotes and a new line. -/
def quoted : XmlPortSeparators := ⟨ascii ",", crlf, ascii "\""⟩

theorem readBack_quoted : readBack quoted [[ascii "a,b", []]] = [[ascii "a,b", []]] := by
  apply (readBack_written quoted (by decide) (by decide) (by decide) [[ascii "a,b", []]]).1
  intro fields hfields
  obtain rfl := List.mem_singleton.mp hfields
  exact ⟨by decide, by decide, by decide, by decide⟩

/-- A quote in a text. -/
theorem quote_cut : (∀ a ∈ [quoted.field, quoted.record, quoted.delimiter],
      ∀ b ∈ [quoted.field, quoted.record, quoted.delimiter], a ≠ b → ¬ a <+: b) ∧
    [] ∉ [quoted.field, quoted.record, quoted.delimiter] ∧
    readBack quoted [[ascii "a\"b"]] ≠ [[ascii "a\"b"]] := by
  decide

end Agiru.XmlPort
