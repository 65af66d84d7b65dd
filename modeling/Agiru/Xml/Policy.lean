import Agiru.Xml.Prolog

/-! The policy on document types finds every declaration, where the comments before the root are
clear, and only the declaration. -/
namespace Agiru.Xml
open Bytes MarkupBytes

variable {source : MarkupBytes} {bytes : Bytes} {offset : Nat} {rest : Bytes}
variable {document : Document}
variable {comment : Comment} {doctype : Doctype} {miscs : List Misc}

theorem stands_of_units {text : Bytes} (hnul : (0 : UInt8) ∉ text) (h : source.units bytes offset = text ++ rest) :
    source.stands bytes offset text = true := by
  rw [stands_iff hnul, h]
  exact List.prefix_append _ _

theorem not_stands {text : Bytes} (hnul : (0 : UInt8) ∉ text) (h : ¬ text <+: source.units bytes offset) :
    source.stands bytes offset text = false := by
  rw [Bool.eq_false_iff, ne_eq, stands_iff hnul]
  exact h

theorem comment_opens (comment : Comment) (rest : Bytes) :
    comment.text ++ rest = commentOpen ++ (comment.body ++ commentClose ++ rest) := by
  rw [Comment.text, List.append_assoc, List.append_assoc, List.append_assoc]

theorem instruction_opens (instruction : Instruction) (rest : Bytes) :
    instruction.text ++ rest = instructionOpen ++ (instruction.body ++ instructionClose ++ rest) := by
  rw [Instruction.text, List.append_assoc, List.append_assoc, List.append_assoc]

theorem after_comment (hclear : comment.Clear) (h : source.units bytes offset = comment.text ++ rest) :
    source.after bytes offset commentClose = offset + comment.text.length * source.width := by
  rw [after_eq (by decide) (by decide) h (hclear.cut rest), ← List.length_append]
  rfl

theorem after_instruction {instruction : Instruction}
    (h : source.units bytes offset = instruction.text ++ rest) :
    source.after bytes offset instructionClose = offset + instruction.text.length * source.width := by
  rw [after_eq (by decide) (by decide) h (instruction.cut rest), ← List.length_append]
  rfl

/-! ### The subset -/

section
variable {turns : Nat}

/-- A character that opens and closes nothing is passed. -/
theorem subset_plain {c : UInt8} (hc : plain c = true) (h : source.units bytes offset = c :: rest) :
    subsetEndFrom source bytes (turns + 1) none offset =
      subsetEndFrom source bytes turns none (offset + source.width) := by
  have hpositive := source.positive
  obtain ⟨hchar, -, hle⟩ := units_cons h
  obtain ⟨⟨hquote, hbracket⟩, hless⟩ : (isQuote c = false ∧ c ≠ closeBracket) ∧ c ≠ Ch.less := by
    simpa [plain] using hc
  have hcomment : source.stands bytes offset commentOpen = false :=
    not_stands (by decide) (by rw [h]; exact fun hbegins => hless (List.cons_prefix_cons.mp hbegins).1.symm)
  have hinstruction : source.stands bytes offset instructionOpen = false :=
    not_stands (by decide) (by rw [h]; exact fun hbegins => hless (List.cons_prefix_cons.mp hbegins).1.symm)
  rw [subsetEndFrom, if_pos (by omega)]
  dsimp only
  rw [hcomment, if_neg Bool.false_ne_true, hinstruction, if_neg Bool.false_ne_true, hchar, hquote,
    if_neg Bool.false_ne_true, if_neg hbracket]

/-- The body of a literal is passed, and the quote that closes it. -/
theorem subset_quoted {quote : UInt8} {body : Bytes} (hbody : quote ∉ body)
    (h : source.units bytes offset = body ++ quote :: rest) :
    subsetEndFrom source bytes (turns + (body.length + 1)) (some quote) offset =
      subsetEndFrom source bytes turns none (offset + (body.length + 1) * source.width) := by
  have hpositive := source.positive
  induction body generalizing offset with
  | nil =>
    obtain ⟨hchar, -, hle⟩ := units_cons h
    rw [List.length_nil, Nat.zero_add, subsetEndFrom, if_pos (by omega)]
    dsimp only
    rw [if_pos hchar, Nat.one_mul]
  | cons c body ih =>
    obtain ⟨hc, hbody⟩ := not_or.mp (mt List.mem_cons.mpr hbody)
    obtain ⟨hchar, hunits, hle⟩ := units_cons h
    rw [List.length_cons, ← Nat.add_assoc turns, subsetEndFrom, if_pos (by omega)]
    dsimp only
    rw [hchar, if_neg (Ne.symm hc), ih hbody hunits]
    congr 1
    ring

/-- Each part of the subset is passed whole. -/
theorem subset_item {item : SubsetItem} (hclear : item.Clear) (h : source.units bytes offset = item.text ++ rest) :
    ∃ spent ≤ item.text.length, ∀ turns, subsetEndFrom source bytes (turns + spent) none offset =
      subsetEndFrom source bytes turns none (offset + item.text.length * source.width) := by
  have hpositive := source.positive
  cases item with
  | character c hc =>
    refine ⟨1, Nat.le_refl _, fun turns => ?_⟩
    rw [subset_plain hc h]
    simp [SubsetItem.text]
  | declaration c hc hhyphen =>
    obtain ⟨hchar, hmark, hle⟩ := units_cons h
    obtain ⟨-, hlast, -⟩ := units_cons hmark
    have hcomment : source.stands bytes offset commentOpen = false := by
      apply not_stands (by decide)
      rw [h]
      intro hbegins
      have hthird : 45 = c := by
        have hbegun : [60, 33, 45, 45] <+: 60 :: 33 :: c :: ([] ++ rest) := hbegins
        simp only [List.cons_prefix_cons] at hbegun
        exact hbegun.2.2.1
      exact hhyphen hthird.symm
    have hinstruction : source.stands bytes offset instructionOpen = false := by
      apply not_stands (by decide)
      rw [h]
      intro hbegins
      have hbegun : [60, 63] <+: 60 :: 33 :: c :: ([] ++ rest) := hbegins
      simp at hbegun
    refine ⟨3, Nat.le_refl _, fun turns => ?_⟩
    rw [show turns + 3 = turns + 2 + 1 by rfl, subsetEndFrom, if_pos (by omega)]
    dsimp only
    rw [hcomment, if_neg Bool.false_ne_true, hinstruction, if_neg Bool.false_ne_true, hchar, if_neg (by decide),
      if_neg (by decide), subset_plain (by decide) hmark, subset_plain hc hlast]
    congr 1
    simp only [SubsetItem.text, List.length_cons, List.length_nil]
    ring
  | literal literal =>
    have hform : source.units bytes offset = literal.quote :: (literal.body ++ literal.quote :: rest) := by
      rw [h, SubsetItem.text, Literal.text, List.cons_append, List.append_assoc, List.singleton_append]
    obtain ⟨hchar, hunits, hle⟩ := units_cons hform
    have hless : literal.quote ≠ Ch.less := by
      intro heq
      have := literal.quoted
      rw [heq] at this
      cases this
    have hcomment : source.stands bytes offset commentOpen = false :=
      not_stands (by decide) (by rw [hform]; exact fun hbegins => hless (List.cons_prefix_cons.mp hbegins).1.symm)
    have hinstruction : source.stands bytes offset instructionOpen = false :=
      not_stands (by decide) (by rw [hform]; exact fun hbegins => hless (List.cons_prefix_cons.mp hbegins).1.symm)
    refine ⟨literal.body.length + 2, by simp [SubsetItem.text, Literal.text], fun turns => ?_⟩
    rw [show turns + (literal.body.length + 2) = turns + (literal.body.length + 1) + 1 by rfl, subsetEndFrom,
      if_pos (by omega)]
    dsimp only
    rw [hcomment, if_neg Bool.false_ne_true, hinstruction, if_neg Bool.false_ne_true, hchar, literal.quoted,
      if_pos rfl, subset_quoted literal.closed hunits]
    congr 1
    simp only [SubsetItem.text, Literal.text, List.length_cons, List.length_append, List.length_nil]
    ring
  | comment comment =>
    obtain ⟨-, -, hle⟩ := units_cons h
    have hstands : source.stands bytes offset commentOpen = true :=
      stands_of_units (by decide) (h.trans (comment_opens comment rest))
    refine ⟨1, List.length_pos_of_ne_nil (List.cons_ne_nil _ _), fun turns => ?_⟩
    rw [subsetEndFrom, if_pos (by omega)]
    dsimp only
    rw [hstands, if_pos rfl, after_comment hclear h]
    rfl
  | instruction instruction =>
    obtain ⟨-, -, hle⟩ := units_cons h
    have hcomment : source.stands bytes offset commentOpen = false := by
      apply not_stands (by decide)
      rw [h]
      intro hbegins
      have hbegun : [60, 33, 45, 45] <+: 60 :: 63 :: (instruction.body ++ instructionClose ++ rest) := hbegins
      simp at hbegun
    have hstands : source.stands bytes offset instructionOpen = true :=
      stands_of_units (by decide) (h.trans (instruction_opens instruction rest))
    refine ⟨1, List.length_pos_of_ne_nil (List.cons_ne_nil _ _), fun turns => ?_⟩
    rw [subsetEndFrom, if_pos (by omega)]
    dsimp only
    rw [hcomment, if_neg Bool.false_ne_true, hstands, if_pos rfl, after_instruction h]
    rfl

theorem subset_items {items : List SubsetItem} (hclear : ∀ item ∈ items, item.Clear)
    (hstart : offset ≤ bytes.length)
    (h : source.units bytes offset = items.flatMap SubsetItem.text ++ rest) :
    ∃ spent ≤ (items.flatMap SubsetItem.text).length, ∀ turns,
        subsetEndFrom source bytes (turns + spent) none offset =
      subsetEndFrom source bytes turns none (offset + (items.flatMap SubsetItem.text).length * source.width) := by
  induction items generalizing offset with
  | nil => exact ⟨0, Nat.le_refl _, fun turns => by simp⟩
  | cons item items ih =>
    obtain ⟨hitem, hitems⟩ := List.forall_mem_cons.mp hclear
    rw [List.flatMap_cons, List.append_assoc] at h
    obtain ⟨hunits, hle⟩ := units_append hstart h
    obtain ⟨first, hfirst, hpass⟩ := subset_item hitem h
    obtain ⟨others, hothers, hrun⟩ := ih hitems hle hunits
    refine ⟨others + first, by rw [List.flatMap_cons, List.length_append]; omega, fun turns => ?_⟩
    rw [← Nat.add_assoc, hpass, hrun, List.flatMap_cons, List.length_append]
    congr 1
    ring

/-- Behind the subset's bracket, the closing `>` is found. -/
theorem subset_end {items : List SubsetItem} (hclear : ∀ item ∈ items, item.Clear) (spaces : Spaces)
    (hstart : offset ≤ bytes.length)
    (h : source.units bytes offset =
      items.flatMap SubsetItem.text ++ closeBracket :: (spaces.1 ++ Ch.greater :: rest)) :
    subsetEndFrom source bytes (bytes.length + 1) none offset =
      some (offset + ((items.flatMap SubsetItem.text).length + spaces.1.length + 2) * source.width) := by
  have hpositive := source.positive
  obtain ⟨spent, hspent, hrun⟩ := subset_items hclear hstart h
  obtain ⟨hunits, -⟩ := units_append hstart h
  have hmany := length_units_le source bytes offset
  rw [h, List.length_append] at hmany
  obtain ⟨turns, hturns⟩ : ∃ turns, bytes.length + 1 = turns + 1 + spent := ⟨bytes.length - spent, by omega⟩
  rw [hturns, hrun]
  generalize hbehind : offset + (items.flatMap SubsetItem.text).length * source.width = behind at hunits
  obtain ⟨hchar, hspaces, hle⟩ := units_cons hunits
  have hcomment : source.stands bytes behind commentOpen = false :=
    not_stands (by decide) (by
      rw [hunits]
      exact fun hbegins => absurd (List.cons_prefix_cons.mp hbegins).1 (by decide))
  have hinstruction : source.stands bytes behind instructionOpen = false :=
    not_stands (by decide) (by
      rw [hunits]
      exact fun hbegins => absurd (List.cons_prefix_cons.mp hbegins).1 (by decide))
  obtain ⟨hclose, -⟩ := units_append hle hspaces
  rw [subsetEndFrom, if_pos (by omega)]
  dsimp only
  rw [hcomment, if_neg Bool.false_ne_true, hinstruction, if_neg Bool.false_ne_true, hchar, if_neg (by decide),
    if_pos rfl, skipSpace_eq hspaces spaces.2 (by rfl), (units_cons hclose).1, if_pos rfl, ← hbehind]
  congr 1
  ring

end

/-! ### The document type -/

/-- The spaces of a gap are followed by a literal, and both are passed. -/
theorem gapAndQuoted_eq {gap : Gap} {literal : Literal} (hstart : offset ≤ bytes.length)
    (h : source.units bytes offset = gap.1 ++ literal.text ++ rest) :
    gapAndQuoted source bytes offset = some (offset + (gap.1 ++ literal.text).length * source.width) := by
  obtain ⟨⟨spaces, hne, hspaces⟩, hgap⟩ : ∃ g : Gap, g = gap := ⟨gap, rfl⟩
  subst hgap
  dsimp only at h ⊢
  obtain ⟨c, tail, rfl⟩ := List.exists_cons_of_ne_nil hne
  rw [List.append_assoc] at h
  have hquote : NoSpace (literal.text ++ rest) := by
    show xmlSpace literal.quote = false
    have hquoted : literal.quote = Ch.quote ∨ literal.quote = Ch.doubleQuote := by
      simpa [isQuote] using literal.quoted
    rcases hquoted with heq | heq <;> rw [heq] <;> rfl
  obtain ⟨hliteral, -⟩ := units_append hstart h
  have hform : source.units bytes (offset + (c :: tail).length * source.width) =
      literal.quote :: (literal.body ++ literal.quote :: rest) := by
    rw [hliteral, Literal.text, List.cons_append, List.append_assoc, List.singleton_append]
  rw [gapAndQuoted, (units_cons h).1, hspaces c List.mem_cons_self, if_pos rfl, skipSpace_eq h hspaces hquote,
    skipQuoted_eq hform literal.quoted literal.closed]
  congr 1
  simp only [Literal.text, List.length_append, List.length_cons, List.length_nil]
  ring

/-- An external id is passed. -/
theorem externalEnd_eq {external : External} (hstart : offset ≤ bytes.length)
    (h : source.units bytes offset = external.text ++ rest) :
    externalEnd source bytes offset = some (offset + external.text.length * source.width) := by
  cases external with
  | systemId gap id =>
    have hform : source.units bytes offset = ascii "SYSTEM" ++ (gap.1 ++ id.text ++ rest) := by
      rw [h, External.text]
      simp only [List.append_assoc]
    have hpublic : source.stands bytes offset (ascii "PUBLIC") = false :=
      not_stands (by decide) (by
        rw [hform]
        exact fun hbegins => absurd (List.cons_prefix_cons.mp hbegins).1 (by decide))
    obtain ⟨hunits, hle⟩ := units_append hstart hform
    have hsix : (ascii "SYSTEM").length = 6 := rfl
    rw [hsix] at hunits hle
    rw [externalEnd, hpublic, stands_of_units (by decide) hform]
    rw [if_neg (by decide), gapAndQuoted_eq hle hunits]
    dsimp only
    rw [if_neg Bool.false_ne_true, External.text]
    congr 1
    simp only [List.length_append, hsix]
    ring
  | publicId gap id behind system =>
    have hform : source.units bytes offset = ascii "PUBLIC" ++
        (gap.1 ++ id.text ++ (behind.1 ++ system.text ++ rest)) := by
      rw [h, External.text]
      simp only [List.append_assoc]
    obtain ⟨hunits, hle⟩ := units_append hstart hform
    have hsix : (ascii "PUBLIC").length = 6 := rfl
    rw [hsix] at hunits hle
    obtain ⟨hsystem, hle'⟩ := units_append hle hunits
    rw [externalEnd, stands_of_units (by decide) hform]
    rw [if_neg (by simp), gapAndQuoted_eq hle hunits]
    dsimp only
    rw [if_pos rfl, gapAndQuoted_eq hle' hsystem, External.text]
    congr 1
    simp only [List.length_append, hsix]
    ring

theorem subsetText_head (doctype : Doctype) (rest : Bytes) :
    ∃ c tail, doctype.subsetText ++ rest = c :: tail ∧ (c = openBracket ∨ c = Ch.greater) := by
  unfold Doctype.subsetText
  split
  · exact ⟨_, _, rfl, .inr rfl⟩
  · exact ⟨_, _, rfl, .inl rfl⟩

theorem space_not_inName {c : UInt8} (h : xmlSpace c = true) : inName c = false := by
  simp [inName, h]

/-- Spaces end a header at the subset's bracket or the closing `>`. -/
theorem headerEnds_spaces (doctype : Doctype) (hstart : offset ≤ bytes.length)
    (h : source.units bytes offset = doctype.spaces.1 ++ (doctype.subsetText ++ rest)) :
    skipSpace source bytes offset = offset + doctype.spaces.1.length * source.width ∧
      headerEnds source bytes (offset + doctype.spaces.1.length * source.width) = true := by
  obtain ⟨c, tail, htail, hc⟩ := subsetText_head doctype rest
  have hspace : NoSpace (doctype.subsetText ++ rest) := by
    rw [htail]
    rcases hc with rfl | rfl <;> rfl
  obtain ⟨hunits, -⟩ := units_append hstart h
  rw [htail] at hunits
  refine ⟨skipSpace_eq h doctype.spaces.2 hspace, ?_⟩
  rw [headerEnds, (units_cons hunits).1]
  rcases hc with rfl | rfl <;> rfl

/-- Behind the name stands a space, the subset's bracket or the closing `>`. -/
theorem name_ends (doctype : Doctype) (rest : Bytes) :
    ∃ d tail, doctype.externalText ++ (doctype.spaces.1 ++ (doctype.subsetText ++ rest)) = d :: tail ∧
      inName d = false := by
  obtain ⟨c, tail, htail, hc⟩ := subsetText_head doctype rest
  have hspaces : ∃ d tail, doctype.spaces.1 ++ (doctype.subsetText ++ rest) = d :: tail ∧ inName d = false := by
    obtain ⟨spaces, hall⟩ := doctype.spaces
    cases spaces with
    | nil => exact ⟨c, tail, htail, by rcases hc with rfl | rfl <;> rfl⟩
    | cons d spaces => exact ⟨d, _, rfl, space_not_inName (hall d List.mem_cons_self)⟩
  unfold Doctype.externalText
  split
  · exact hspaces
  · rename_i gap external _
    obtain ⟨gap, hne, hall⟩ := gap
    obtain ⟨d, gap, rfl⟩ := List.exists_cons_of_ne_nil hne
    exact ⟨d, _, rfl, space_not_inName (hall d List.mem_cons_self)⟩

theorem externalText_head (external : External) (rest : Bytes) :
    ∃ c tail, external.text ++ rest = c :: tail ∧ (c = 83 ∨ c = 80) := by
  cases external with
  | systemId gap id => exact ⟨_, _, rfl, .inl rfl⟩
  | publicId gap id behind system => exact ⟨_, _, rfl, .inr rfl⟩

/-- The header of a document type. -/
def Doctype.headerText (doctype : Doctype) : Bytes :=
  doctypeOpen ++ (doctype.gap.1 ++ (doctype.name ++ (doctype.externalText ++ doctype.spaces.1)))

theorem text_eq (doctype : Doctype) : doctype.text = doctype.headerText ++ doctype.subsetText := by
  simp only [Doctype.text, Doctype.headerText, List.append_assoc]

/-- The header is passed, up to the subset's bracket or the closing `>`. -/
theorem doctypeHeaderEnd_eq (hstart : offset ≤ bytes.length) (h : source.units bytes offset = doctype.text ++ rest) :
    doctypeHeaderEnd source bytes offset = some (offset + doctype.headerText.length * source.width) := by
  have hpositive := source.positive
  have hform : source.units bytes offset = doctypeOpen ++ (doctype.gap.1 ++ (doctype.name ++
      (doctype.externalText ++ (doctype.spaces.1 ++ (doctype.subsetText ++ rest))))) := by
    rw [h, Doctype.text]
    simp only [List.append_assoc]
  have hlength : offset + doctype.headerText.length * source.width = offset + doctypeOpen.length * source.width +
      doctype.gap.1.length * source.width + doctype.name.length * source.width +
      doctype.externalText.length * source.width + doctype.spaces.1.length * source.width := by
    simp only [Doctype.headerText, List.length_append]
    ring
  rw [hlength]
  unfold doctypeHeaderEnd
  obtain ⟨hgap, hle⟩ := units_append hstart hform
  generalize offset + doctypeOpen.length * source.width = atGap at *
  obtain ⟨hname, hle'⟩ := units_append hle hgap
  obtain ⟨d, tail, hbehind, hd⟩ := name_ends doctype rest
  obtain ⟨hnonempty, hinName⟩ := doctype.named
  obtain ⟨hexternal, hle''⟩ := units_append hle' hname
  have hspace : xmlSpace (source.characterAt bytes atGap) = true := by
    obtain ⟨c, gap, hc⟩ := List.exists_cons_of_ne_nil doctype.gap.2.1
    have hall := doctype.gap.2.2 c (hc ▸ List.mem_cons_self)
    rw [hc] at hgap
    rw [(units_cons hgap).1, hall]
  have hskipped : skipSpace source bytes atGap = atGap + doctype.gap.1.length * source.width := by
    apply skipSpace_eq hgap doctype.gap.2.2
    obtain ⟨c, name, hc⟩ := List.exists_cons_of_ne_nil hnonempty
    have hin := hinName c (hc ▸ List.mem_cons_self)
    rw [hc]
    have hnot : (xmlSpace c = false ∧ c ≠ openBracket) ∧ c ≠ Ch.greater := by simpa [inName] using hin
    exact hnot.1.1
  generalize atGap + doctype.gap.1.length * source.width = atName at *
  have hmany := length_units_le source bytes atName
  rw [hname, List.length_append] at hmany
  have hnameEnd : nameEndFrom source bytes (bytes.length + 1) atName =
      atName + doctype.name.length * source.width := by
    rw [hbehind] at hname
    exact nameEndFrom_eq hname hinName hd (by omega)
  have hmoved : atName + doctype.name.length * source.width ≠ atName := by
    have := Nat.mul_pos (List.length_pos_of_ne_nil hnonempty) hpositive
    omega
  generalize atName + doctype.name.length * source.width = atExternal at *
  dsimp only
  rw [hspace, hskipped, hnameEnd, if_neg (by decide), if_neg hmoved]
  cases hcase : doctype.external with
  | none =>
    have hnone : doctype.externalText = [] := by rw [Doctype.externalText, hcase]
    rw [hnone, List.nil_append] at hexternal
    obtain ⟨hskip, hends⟩ := headerEnds_spaces doctype hle'' hexternal
    rw [hskip, if_pos hends, hnone, List.length_nil, Nat.zero_mul, Nat.add_zero]
  | some parts =>
    obtain ⟨gap, external⟩ := parts
    have hsome : doctype.externalText = gap.1 ++ external.text := by rw [Doctype.externalText, hcase]
    rw [hsome, List.append_assoc] at hexternal
    obtain ⟨c, tail, hhead, hc⟩ := externalText_head external (doctype.spaces.1 ++ (doctype.subsetText ++ rest))
    have hspaces : NoSpace (external.text ++ (doctype.spaces.1 ++ (doctype.subsetText ++ rest))) := by
      rw [hhead]
      rcases hc with rfl | rfl <;> rfl
    obtain ⟨hid, hleId⟩ := units_append hle'' hexternal
    obtain ⟨hbehindId, hleBehind⟩ := units_append hleId hid
    obtain ⟨hskip, hends⟩ := headerEnds_spaces doctype hleBehind hbehindId
    have hnot : headerEnds source bytes (atExternal + gap.1.length * source.width) = false := by
      rw [hhead] at hid
      rw [headerEnds, (units_cons hid).1]
      rcases hc with rfl | rfl <;> rfl
    rw [skipSpace_eq hexternal gap.2.2 hspaces, hnot, if_neg Bool.false_ne_true, externalEnd_eq hleId hid]
    dsimp only
    rw [hskip, if_pos hends, hsome, List.length_append]
    congr 1
    ring

/-- A document type is passed, up to its closing `>`. -/
theorem doctypeEnd_eq (hclear : doctype.Clear) (hstart : offset ≤ bytes.length)
    (h : source.units bytes offset = doctype.text ++ rest) :
    doctypeEnd source bytes offset = some (offset + doctype.text.length * source.width) := by
  have hheader := doctypeHeaderEnd_eq hstart h
  rw [text_eq, List.append_assoc] at h
  obtain ⟨hunits, hle⟩ := units_append hstart h
  rw [doctypeEnd, hheader]
  dsimp only
  unfold Doctype.subsetText at hunits
  cases hcase : doctype.subset with
  | none =>
    have hnone : doctype.subsetText = [Ch.greater] := by rw [Doctype.subsetText, hcase]
    rw [hcase] at hunits
    rw [(units_cons hunits).1, if_pos rfl, text_eq, hnone, List.length_append, List.length_singleton]
    congr 1
    ring
  | some parts =>
    obtain ⟨items, spaces⟩ := parts
    have hsome : doctype.subsetText =
        openBracket :: (items.flatMap SubsetItem.text ++ closeBracket :: (spaces.1 ++ [Ch.greater])) := by
      rw [Doctype.subsetText, hcase]
    rw [hcase] at hunits
    dsimp only at hunits
    obtain ⟨hchar, hitems, hle'⟩ := units_cons hunits
    have hform : source.units bytes (offset + doctype.headerText.length * source.width + source.width) =
        items.flatMap SubsetItem.text ++ closeBracket :: (spaces.1 ++ Ch.greater :: rest) := by
      refine hitems.trans ?_
      show (items.flatMap SubsetItem.text ++ closeBracket :: (spaces.1 ++ [Ch.greater])) ++ rest = _
      simp only [List.append_assoc, List.cons_append, List.nil_append]
    rw [hchar, if_neg (by decide), subset_end (hclear (items, spaces) hcase) spaces hle' hform, text_eq, hsome]
    congr 1
    simp only [List.length_append, List.length_cons, List.length_nil]
    ring

/-! ### The prolog -/

section
variable {prohibit : Bool} {cutting : Cutting} {turns : Nat}

/-- Behind what may stand beside the document type the scan goes on. -/
theorem policy_misc {misc : Misc} (hclear : misc.Clear)
    (h : source.units cutting.text offset = misc.text ++ rest) :
    policyFrom source prohibit (turns + 1) cutting offset =
      policyFrom source prohibit turns cutting (offset + misc.text.length * source.width) := by
  have hpositive := source.positive
  cases misc with
  | space c hc =>
    obtain ⟨hchar, -, hle⟩ := units_cons h
    rw [policyFrom, if_pos (by omega), hchar, hc, if_pos rfl]
    simp [Misc.text]
  | comment comment =>
    obtain ⟨hchar, -, hle⟩ := units_cons h
    have hstands : source.stands cutting.text offset commentOpen = true :=
      stands_of_units (by decide) (h.trans (comment_opens comment rest))
    rw [policyFrom, if_pos (by omega), hchar, if_neg (by decide), hstands, if_pos rfl, after_comment hclear h]
    rfl
  | instruction instruction =>
    obtain ⟨hchar, -, hle⟩ := units_cons h
    have hcomment : source.stands cutting.text offset commentOpen = false := by
      apply not_stands (by decide)
      rw [h]
      intro hbegins
      have hbegun : [60, 33, 45, 45] <+: 60 :: 63 :: (instruction.body ++ instructionClose ++ rest) := hbegins
      simp at hbegun
    have hstands : source.stands cutting.text offset instructionOpen = true :=
      stands_of_units (by decide) (h.trans (instruction_opens instruction rest))
    rw [policyFrom, if_pos (by omega), hchar, if_neg (by decide), hcomment, if_neg Bool.false_ne_true, hstands,
      if_pos rfl, after_instruction h]
    rfl

theorem policy_miscs (hclear : ∀ misc ∈ miscs, misc.Clear) (hstart : offset ≤ cutting.text.length)
    (h : source.units cutting.text offset = Document.miscText miscs ++ rest) :
    policyFrom source prohibit (turns + miscs.length) cutting offset =
      policyFrom source prohibit turns cutting (offset + (Document.miscText miscs).length * source.width) := by
  induction miscs generalizing offset with
  | nil => simp [Document.miscText]
  | cons misc miscs ih =>
    obtain ⟨hmisc, hmiscs⟩ := List.forall_mem_cons.mp hclear
    have hform : source.units cutting.text offset = misc.text ++ (Document.miscText miscs ++ rest) := by
      rw [h, Document.miscText, List.flatMap_cons, List.append_assoc]
      rfl
    obtain ⟨hunits, hle⟩ := units_append hstart hform
    rw [List.length_cons, ← Nat.add_assoc, policy_misc hmisc hform, ih hmiscs hle hunits, Document.miscText,
      Document.miscText, List.flatMap_cons, List.length_append]
    congr 1
    ring

theorem miscs_length_le (miscs : List Misc) : miscs.length ≤ (Document.miscText miscs).length := by
  induction miscs with
  | nil => exact Nat.zero_le _
  | cons misc miscs ih =>
    have hpos : 0 < misc.text.length := by
      cases misc <;> exact List.length_pos_of_ne_nil (List.cons_ne_nil _ _)
    have hsum : (Document.miscText (misc :: miscs)).length =
        misc.text.length + (Document.miscText miscs).length := by
      rw [Document.miscText, List.flatMap_cons, List.length_append]
      rfl
    rw [List.length_cons]
    omega

/-- The scan ends where neither a space stands nor anything that it knows. -/
theorem policy_ends {c : UInt8} (h : source.units cutting.text offset = c :: rest) (hspace : xmlSpace c = false)
    (hless : c = Ch.less → ∃ d tail, rest = d :: tail ∧ d ≠ 33 ∧ d ≠ Ch.question) :
    policyFrom source prohibit turns cutting offset = cutting.finish := by
  cases turns with
  | zero => rfl
  | succ turns =>
    have hpositive := source.positive
    obtain ⟨hchar, -, hle⟩ := units_cons h
    have hnot : ∀ {e : UInt8} {text : Bytes}, e = 33 ∨ e = Ch.question →
        ¬ (Ch.less :: e :: text) <+: source.units cutting.text offset := by
      intro e text he hbegins
      rw [h] at hbegins
      obtain ⟨hc, hbehind⟩ := List.cons_prefix_cons.mp hbegins
      obtain ⟨d, tail, rfl, hmark, hquestion⟩ := hless hc.symm
      obtain ⟨rfl, -⟩ := List.cons_prefix_cons.mp hbehind
      exact he.elim hmark hquestion
    have hcomment : source.stands cutting.text offset commentOpen = false :=
      not_stands (by decide) (hnot (.inl rfl))
    have hinstruction : source.stands cutting.text offset instructionOpen = false :=
      not_stands (by decide) (hnot (.inr rfl))
    have hdoctype : source.stands cutting.text offset doctypeOpen = false :=
      not_stands (by decide) (hnot (.inl rfl))
    rw [policyFrom, if_pos (by omega), hchar, hspace, if_neg Bool.false_ne_true, hcomment,
      if_neg Bool.false_ne_true, hinstruction, if_neg Bool.false_ne_true, hdoctype, if_neg Bool.false_ne_true]

theorem policy_spaces {spaces : Bytes} (hspaces : ∀ c ∈ spaces, xmlSpace c = true)
    (hstart : offset ≤ cutting.text.length)
    (h : source.units cutting.text offset = spaces ++ rest) :
    policyFrom source prohibit (turns + 1 + spaces.length) cutting offset =
      policyFrom source prohibit (turns + 1) cutting (offset + spaces.length * source.width) := by
  have hpositive := source.positive
  induction spaces generalizing offset with
  | nil => simp
  | cons c spaces ih =>
    obtain ⟨hc, hspaces⟩ := List.forall_mem_cons.mp hspaces
    obtain ⟨hchar, hunits, hle⟩ := units_cons h
    rw [List.length_cons, ← Nat.add_assoc, policyFrom, if_pos (by omega), hchar, hc, if_pos rfl, ih hspaces hle hunits]
    congr 1
    ring

/-- A document type is refused, or cut out. -/
theorem policy_doctype (hclear : doctype.Clear) (hstart : offset ≤ cutting.text.length)
    (h : source.units cutting.text offset = doctype.text ++ rest) :
    policyFrom source prohibit (turns + 1) cutting offset =
      if prohibit then cutting.fail source offset prohibited
      else
        let behind := offset + doctype.text.length * source.width
        let retained := retainBytes cutting.text cutting.segment offset cutting.retained
        policyFrom source prohibit turns ⟨retained.1, retained.2, behind⟩ behind := by
  have hpositive := source.positive
  have hform : source.units cutting.text offset = doctypeOpen ++ (doctype.gap.1 ++ (doctype.name ++
      (doctype.externalText ++ (doctype.spaces.1 ++ (doctype.subsetText ++ rest))))) := by
    rw [h, Doctype.text]
    simp only [List.append_assoc]
  obtain ⟨hchar, -, hle⟩ := units_cons hform
  have hcomment : source.stands cutting.text offset commentOpen = false := by
    apply not_stands (by decide)
    rw [hform]
    intro hbegins
    exact absurd (List.cons_prefix_cons.mp (List.cons_prefix_cons.mp hbegins).2).2 (by
      intro hthird
      exact absurd (List.cons_prefix_cons.mp hthird).1 (by decide))
  have hinstruction : source.stands cutting.text offset instructionOpen = false := by
    apply not_stands (by decide)
    rw [hform]
    intro hbegins
    exact absurd (List.cons_prefix_cons.mp (List.cons_prefix_cons.mp hbegins).2).1 (by decide)
  rw [policyFrom, if_pos (by omega), hchar, if_neg (by decide), hcomment, if_neg Bool.false_ne_true, hinstruction,
    if_neg Bool.false_ne_true, stands_of_units (by decide) hform, if_pos rfl, doctypeEnd_eq hclear hstart h]

/-! ### The policy -/

theorem finish_whole (text : Bytes) : Cutting.finish ⟨text, 0, 0⟩ = ⟨text, none⟩ := by
  simp [Cutting.finish, retainBytes]

/-- What is retained of a text with a cut. -/
theorem finish_cut {text : Bytes} {first behind : Nat} (hfirst : first ≤ behind) (hbehind : behind < text.length)
    (hne : first ≠ behind) : Cutting.finish ⟨text, first, behind⟩ =
        ⟨text.take first ++ text.drop behind, none⟩ := by
  have hcount : text.length - behind ≠ 0 := by omega
  have htake : (text.take first ++ (text.drop behind).take (text.length - behind) ++
      text.drop (first + (text.length - behind))).take (first + (text.length - behind)) =
        text.take first ++ text.drop behind := by
    have hwhole : (text.drop behind).take (text.length - behind) = text.drop behind :=
      List.take_of_length_le (by rw [List.length_drop])
    have hlength : (text.take first ++ text.drop behind).length = first + (text.length - behind) := by
      rw [List.length_append, List.length_take, List.length_drop]
      omega
    rw [hwhole, ← hlength, List.take_left]
  rw [Cutting.finish, retainBytes]
  dsimp only
  rw [if_pos ⟨Ne.symm hne, hcount⟩, htake]

/-- The declaration is refused, or cut out and nothing else; without one the text is left as it is. -/
def Obeyed (text : Bytes) (document : Document) : Prop :=
  match document.doctype with
  | none => ∀ processing, applyDtdPolicy processing text = ⟨text, none⟩
  | some (doctype, _) =>
    let source := ofBytes text
    let first := source.start + (Document.miscText document.before).length * source.width
    let behind := first + doctype.text.length * source.width
    (applyDtdPolicy .prohibit text).failure = some prohibited ∧
      applyDtdPolicy .ignore text = ⟨text.take first ++ text.drop behind, none⟩

/-- A document's characters, in the units that its first bytes announce. -/
def Encodes (text : Bytes) (document : Document) : Prop :=
  (ofBytes text).units text (ofBytes text).start = document.text

theorem start_le {text : Bytes} (h : Encodes text document) : (ofBytes text).start ≤ text.length := by
  have hpositive := (ofBytes text).positive
  by_contra hlt
  have hnil : (ofBytes text).units text (ofBytes text).start = [] := units_of_lt (by omega)
  rw [Encodes, hnil] at h
  obtain ⟨c, rest, hroot, -⟩ := document.rooted
  have hmem : Ch.less ∈ document.text := by
    unfold Document.text
    split <;> simp [hroot]
  rw [← h] at hmem
  exact absurd hmem List.not_mem_nil

/-- The scan passes what stands first, and has turns for the rest. -/
theorem policy_passes {text : Bytes} {first : Nat} (hclear : ∀ misc ∈ miscs, misc.Clear)
    (hstart : first ≤ text.length) (h : source.units text first = Document.miscText miscs ++ rest)
    (prohibit : Bool) :
    ∃ turns, rest.length ≤ turns ∧ policyFrom source prohibit (text.length + 1) ⟨text, 0, 0⟩ first =
      policyFrom source prohibit (turns + 1) ⟨text, 0, 0⟩
        (first + (Document.miscText miscs).length * source.width) := by
  have hmany := length_units_le source text first
  have hfew := miscs_length_le miscs
  rw [h, List.length_append] at hmany
  refine ⟨text.length - miscs.length, by omega, ?_⟩
  rw [show text.length + 1 = text.length - miscs.length + 1 + miscs.length by omega]
  exact policy_miscs hclear hstart h

/-- A comment that is not clear goes on, behind spaces, with a character other than `<`. -/
def Astray (comment : Comment) : Prop :=
  ∃ opening, (opening = [Ch.greater] ∨ opening = [Ch.minus, Ch.greater]) ∧
    ∃ (spaces : Spaces) (tail : Bytes), comment.body = opening ++ spaces.1 ++ tail ∧
      ∀ c ∈ tail.head?, xmlSpace c = false ∧ c ≠ Ch.less

/-- Such a comment ends the scan. -/
theorem policy_astray (hastray : Astray comment) {turns : Nat}
    (hstart : offset ≤ cutting.text.length) (h : source.units cutting.text offset = comment.text ++ rest)
    (hturns : comment.text.length ≤ turns) :
    policyFrom source prohibit (turns + 1) cutting offset = cutting.finish := by
  have hpositive := source.positive
  obtain ⟨opening, hopening, spaces, tail, hbody, htail⟩ := hastray
  -- the close is found in the comment's opening, and the scan goes on inside the comment
  obtain ⟨before, hbefore, hcut⟩ : ∃ before, commentOpen ++ opening = before ++ commentClose ∧
      Occurs.cut commentClose (before ++ commentClose ++ (spaces.1 ++ (tail ++ (commentClose ++ rest)))) =
        some (before, spaces.1 ++ (tail ++ (commentClose ++ rest))) := by
    obtain rfl | rfl := hopening
    · refine ⟨[60, 33], rfl, ?_⟩
      rfl
    · refine ⟨[60, 33, 45], rfl, ?_⟩
      rfl
  have hform : source.units cutting.text offset =
      before ++ commentClose ++ (spaces.1 ++ (tail ++ (commentClose ++ rest))) := by
    rw [h, Comment.text, hbody, ← hbefore]
    simp only [List.append_assoc]
  obtain ⟨hinside, hle⟩ := units_append hstart hform
  have hsplit := h.trans (comment_opens comment rest)
  obtain ⟨hchar, -, hroom⟩ := units_cons hsplit
  have hlength : spaces.1.length + 1 ≤ turns := by
    have hall : comment.text.length = 4 + (opening.length + spaces.1.length + tail.length) + 3 := by
      rw [Comment.text, hbody, List.length_append, List.length_append, List.length_append, List.length_append]
      rfl
    omega
  obtain ⟨spent, rfl⟩ : ∃ spent, turns = spent + 1 + spaces.1.length := ⟨turns - spaces.1.length - 1, by omega⟩
  have hinText : offset < cutting.text.length := by omega
  rw [policyFrom, if_pos hinText, hchar, if_neg (by decide), stands_of_units (by decide) hsplit, if_pos rfl,
    after_eq (by decide) (by decide) hform hcut, ← List.length_append, policy_spaces spaces.2 hle hinside]
  obtain ⟨hbehind, -⟩ := units_append hle hinside
  cases tail with
  | nil =>
    have hstop : source.units cutting.text (offset + (before ++ commentClose).length * source.width +
        spaces.1.length * source.width) = 45 :: (45 :: 62 :: rest) := hbehind
    exact policy_ends hstop (by decide) fun h => absurd h (by decide)
  | cons c tail =>
    obtain ⟨hspace, hless⟩ := htail c rfl
    exact policy_ends hbehind hspace fun h => absurd h hless

/-- Beside the declaration, comments that the scan passes, or the first of which it does not pass ends it. -/
def Harmless (miscs : List Misc) : Prop :=
  (∀ misc ∈ miscs, misc.Clear) ∨
    ∃ passed comment later, miscs = passed ++ .comment comment :: later ∧ (∀ misc ∈ passed, misc.Clear) ∧
      Astray comment

/-- Nothing is found any more. -/
theorem policy_harmless (hharmless : Harmless miscs) {c : UInt8} (hmark : c ≠ 33)
    (hquestion : c ≠ Ch.question) (hstart : offset ≤ cutting.text.length)
    (h : source.units cutting.text offset = Document.miscText miscs ++ Ch.less :: c :: rest)
    (hturns : (Document.miscText miscs).length ≤ turns) :
    policyFrom source prohibit (turns + 1) cutting offset = cutting.finish := by
  rcases hharmless with hclear | ⟨passed, comment, later, rfl, hpassed, hastray⟩
  · have hfew := miscs_length_le miscs
    obtain ⟨hroot, -⟩ := units_append hstart h
    rw [show turns + 1 = turns + 1 - miscs.length + miscs.length by omega, policy_miscs hclear hstart h]
    exact policy_ends hroot (by decide) fun _ => ⟨c, rest, rfl, hmark, hquestion⟩
  · have hfew := miscs_length_le passed
    have hform : source.units cutting.text offset = Document.miscText passed ++
        (comment.text ++ (Document.miscText later ++ Ch.less :: c :: rest)) := by
      rw [h, Document.miscText, Document.miscText, Document.miscText, List.flatMap_append, List.flatMap_cons]
      simp only [List.append_assoc]
      rfl
    have hlength : (Document.miscText (passed ++ .comment comment :: later)).length =
        (Document.miscText passed).length + (comment.text.length + (Document.miscText later).length) := by
      simp [Document.miscText, Misc.text]
    obtain ⟨hbehind, hle⟩ := units_append hstart hform
    rw [show turns + 1 = turns - passed.length + 1 + passed.length by omega, policy_miscs hpassed hstart hform]
    exact policy_astray hastray hle hbehind (by omega)

/-- The scan meets the declaration if there is one, and nothing that it takes for another. -/
def Met (document : Document) : Prop :=
  match document.doctype with
  | none => Harmless document.before
  | some (doctype, behind) => (∀ misc ∈ document.before, misc.Clear) ∧ doctype.Clear ∧ Harmless behind

theorem met_of_clear (h : document.Clear) : Met document := by
  unfold Met
  cases hcase : document.doctype with
  | none => exact .inl h.1
  | some parts => exact ⟨h.1, (h.2 _ hcase).1, .inl (h.2 _ hcase).2⟩

/-- Without a declaration, every setting reads all of the text. -/
theorem obeyed_whole {text : Bytes} (h : Encodes text document) (hmet : Met document)
    (hcase : document.doctype = none) : Obeyed text document := by
  have hstart := start_le h
  obtain ⟨c, tail, hroot, hmark, hquestion⟩ := document.rooted
  have hmany := length_units_le (ofBytes text) text (ofBytes text).start
  unfold Encodes Document.text at h
  unfold Met at hmet
  rw [hcase] at h hmet
  dsimp only at h hmet
  rw [hroot] at h
  rw [h, List.length_append] at hmany
  have hkept : ∀ prohibit,
      policyFrom (ofBytes text) prohibit (text.length + 1) ⟨text, 0, 0⟩ (ofBytes text).start = ⟨text, none⟩ := by
    intro prohibit
    rw [policy_harmless hmet hmark hquestion hstart h (by omega), finish_whole]
  rw [Obeyed, hcase]
  intro processing
  cases processing with
  | parse => rfl
  | prohibit => exact hkept true
  | ignore => exact hkept false

/-- A declaration that the scan meets is refused or cut out. -/
theorem obeyed_declared {text : Bytes} (h : Encodes text document) (hmet : Met document) {doctype : Doctype}
    {behind : List Misc} (hcase : document.doctype = some (doctype, behind)) : Obeyed text document := by
  have hstart := start_le h
  have hpositive := (ofBytes text).positive
  obtain ⟨c, tail, hroot, hmark, hquestion⟩ := document.rooted
  unfold Encodes Document.text at h
  unfold Met at hmet
  rw [hcase] at h hmet
  dsimp only at h hmet
  obtain ⟨hbefore, hdoctype, hbehind⟩ := hmet
  obtain ⟨hunits, hle⟩ := units_append hstart h
  obtain ⟨hmiscs, hle'⟩ := units_append hle hunits
  obtain ⟨hrootUnits, -⟩ := units_append hle' hmiscs
  rw [hroot] at hrootUnits hmiscs
  rw [Obeyed, hcase]
  refine ⟨?_, ?_⟩
  · obtain ⟨turns, -, hpass⟩ := policy_passes hbefore hstart h true
    rw [applyDtdPolicy, hpass, policy_doctype hdoctype hle hunits]
    rfl
  · obtain ⟨turns, hturns, hpass⟩ := policy_passes hbefore hstart h false
    rw [List.length_append, List.length_append] at hturns
    have hlong : 0 < doctype.text.length := List.length_pos_of_ne_nil (List.cons_ne_nil _ _)
    have hwide := Nat.mul_pos hlong hpositive
    obtain ⟨spent, rfl⟩ : ∃ spent, turns = spent + 1 := ⟨turns - 1, by omega⟩
    rw [applyDtdPolicy, hpass, policy_doctype hdoctype hle hunits, if_neg Bool.false_ne_true]
    have hretained : ∀ first, retainBytes text 0 first 0 = (text, first) := by simp [retainBytes]
    obtain ⟨-, -, hroom⟩ := units_cons hrootUnits
    dsimp only
    rw [hretained]
    dsimp only
    rw [policy_harmless hbehind hmark hquestion hle' hmiscs (by omega),
      finish_cut (Nat.le_add_right _ _) (by omega) (by omega)]

theorem obeyed_of_met {text : Bytes} (h : Encodes text document) (hmet : Met document) : Obeyed text document := by
  cases hcase : document.doctype with
  | none => exact obeyed_whole h hmet hcase
  | some parts => exact obeyed_declared h hmet hcase

/-- Behind a comment that leads the scan astray, the declaration is not seen. -/
theorem not_obeyed_of_astray {text : Bytes} (h : Encodes text document) {passed later : List Misc}
    (hbefore : document.before = passed ++ .comment comment :: later)
    (hpassed : ∀ misc ∈ passed, misc.Clear) (hastray : Astray comment) (hdeclared : document.doctype.isSome) :
    ¬ Obeyed text document := by
  obtain ⟨parts, hcase⟩ := Option.isSome_iff_exists.mp hdeclared
  have hmiscs : Document.miscText document.before =
      Document.miscText passed ++ (comment.text ++ Document.miscText later) := by
    rw [hbefore, Document.miscText, List.flatMap_append, List.flatMap_cons]
    rfl
  have hstart := start_le h
  obtain ⟨behind, hform⟩ : ∃ behind, (ofBytes text).units text (ofBytes text).start =
      Document.miscText passed ++ (comment.text ++ behind) := by
    refine ⟨Document.miscText later ++ (parts.1.text ++ (Document.miscText parts.2 ++ document.root)), ?_⟩
    unfold Encodes Document.text at h
    rw [hcase] at h
    rw [h, hmiscs]
    simp only [List.append_assoc]
  obtain ⟨turns, hturns, hpass⟩ := policy_passes hpassed hstart hform true
  obtain ⟨hunits, hle⟩ := units_append hstart hform
  rw [List.length_append] at hturns
  intro hobeyed
  unfold Obeyed at hobeyed
  rw [hcase] at hobeyed
  have hfailure := hobeyed.1
  rw [applyDtdPolicy, hpass, policy_astray hastray hle hunits (by omega), finish_whole] at hfailure
  cases hfailure

/-- Where the scan meets the declaration the policy holds, so where no comment before the root begins with `>` or
`->`; before a declaration, the first comment that does and goes on with another character than `<` hides it. -/
theorem policy_obeyed {text : Bytes} {document : Document} (h : Encodes text document) :
    (Met document → Obeyed text document) ∧
      ∀ passed comment later, document.before = passed ++ .comment comment :: later →
        (∀ misc ∈ passed, misc.Clear) → Astray comment → document.doctype.isSome → ¬ Obeyed text document :=
  ⟨obeyed_of_met h, fun _ _ _ hbefore hpassed hastray hdeclared =>
    not_obeyed_of_astray h hbefore hpassed hastray hdeclared⟩

/-- `<a/>` with the document type `<!DOCTYPE a>`, behind some markup. -/
def declared (before : List Misc) : Document :=
  { before
    doctype := some (⟨⟨[Ch.blank], by decide +kernel, by decide +kernel⟩, ascii "a", by decide +kernel, none,
      ⟨[], by decide +kernel⟩, none⟩, [])
    root := ascii "<a/>"
    rooted := ⟨_, _, rfl, by decide +kernel, by decide +kernel⟩ }

theorem policy_obeyed_comment :
    Obeyed (ascii "<!-- > --><!DOCTYPE a><a/>") (declared [.comment ⟨ascii " > ", by decide, by decide⟩]) := by
  have hencodes : Encodes (ascii "<!-- > --><!DOCTYPE a><a/>")
      (declared [.comment ⟨ascii " > ", by decide, by decide⟩]) := by
    rfl
  refine (policy_obeyed hencodes).1 (met_of_clear ⟨?_, ?_⟩)
  · intro misc hmisc
    rw [List.mem_singleton.mp hmisc]
    show Comment.Clear ⟨ascii " > ", _, _⟩
    decide
  · intro parts hparts
    cases hparts
    refine ⟨?_, fun _ hmisc => nomatch hmisc⟩
    intro items hitems
    cases hitems

/-- Behind a comment that is `>` and a blank, a document type is neither refused nor cut out. -/
theorem policy_passes_declaration :
    ∃ text document, Encodes text document ∧ document.doctype.isSome ∧
      applyDtdPolicy .prohibit text = ⟨text, none⟩ ∧
      applyDtdPolicy .ignore text = ⟨text, none⟩ ∧ ¬ Obeyed text document := by
  refine ⟨ascii "<!--> --><!DOCTYPE a><a/>", declared [.comment ⟨ascii "> ", by decide, by decide⟩], rfl, rfl,
    by decide +kernel, by decide +kernel, ?_⟩
  intro hobeyed
  exact absurd hobeyed.1 (by decide +kernel)

end
end Agiru.Xml
