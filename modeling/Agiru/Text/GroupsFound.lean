import Agiru.Text.GroupNames

/-! Whether the names of a regular expression's groups point at the right groups (`Points`): if no parenthesis deceives
the scan, and, unless a parenthesis gets into a name, only then. -/
namespace Agiru.Regex
open Bytes
open Bytes.Ch Ch

variable {mode : Mode} {rest : Bytes} {group : Opening}
variable {text : Bytes}
variable {after : Mode} {name : Bytes}

/-! ### Groups that are not misread -/

theorem numbered_length (number : Nat) (groups : List Opening) :
    (numbered number groups).length = groups.length := by
  induction groups generalizing number with
  | nil => rfl
  | cons group rest ih => rw [numbered, List.length_cons, List.length_cons, ih]

theorem groups_opens {named : Bool} (h : parens named mode text = .opens group :: parens named after rest) :
    groups named mode text = group :: groups named after rest := by
  rw [groups, h]
  rfl

theorem groups_stands {named : Bool} {behind : Bytes}
    (h : parens named mode text = .stands behind :: parens named after rest) :
    groups named mode text = groups named after rest := by
  rw [groups, h]
  rfl

theorem groups_same {named : Bool}
    (h : parens named mode text = parens named after rest) : groups named mode text = groups named after rest := by
  rw [groups, h]
  rfl

/-- A group that is found. -/
theorem parens_group (h : opening true rest = some group) :
    parens true .pattern (openParen :: rest) = .opens group :: parens true .pattern group.behind := by
  rw [pattern_paren, h]

/-- No parenthesis of a set is taken for a group. -/
def Kept (mode : Mode) (text : Bytes) : Prop := ∀ paren ∈ parens true mode text, paren.misleads = false

theorem kept_same (h : parens true mode text = parens true after rest) : Kept mode text ↔ Kept after rest := by
  rw [Kept, h, Kept]

theorem kept_cons {paren : Paren} (h : parens true mode text = paren :: parens true after rest) :
    Kept mode text ↔ paren.misleads = false ∧ Kept after rest := by
  rw [Kept, h, List.forall_mem_cons, Kept]

theorem Kept.stands (hkept : Kept mode (openParen :: rest))
    (h : parens true mode (openParen :: rest) = .stands rest :: parens true mode rest) :
    opening true rest = none ∧ Kept mode rest := by
  obtain ⟨hmisleads, hrest⟩ := (kept_cons h).mp hkept
  exact ⟨Option.not_isSome_iff_eq_none.mp (Bool.eq_false_iff.mp hmisleads), hrest⟩

theorem numbered_cons (out : Translated) (group : Opening) (rest : List Opening) :
    out.names ++ numbered out.names.length (group :: rest) =
      (out.group (group.name.getD (natText out.names.length))).names ++
        numbered (out.group (group.name.getD (natText out.names.length))).names.length rest := by
  simp only [numbered, Translated.group, List.length_append, List.length_singleton, List.append_assoc,
    List.singleton_append]

/-- The names of a text that is read right. -/
theorem scan_names (mode : Mode) (text : Bytes) (out : Translated) (hkept : Kept mode text) :
    (scan text out).names = out.names ++ numbered out.names.length (groups true mode text) := by
  induction hlength : text.length using Nat.strongRecOn generalizing mode text out with
  | _ length ih =>
    subst hlength
    cases turn mode text with
    | done htext =>
      subst htext
      rw [scan_nil, groups, parens_nil, List.filterMap_nil, numbered, List.append_nil]
    | passed after read rest _ hless hscan hnamed _ _ =>
      rw [hscan, ih _ hless after rest (out.copy read) ((kept_same hnamed).mp hkept) rfl, groups_same hnamed]
      rfl
    | @group rest group htext hmode hgroup =>
      subst htext hmode
      have hparens := parens_group hgroup
      have hless : group.behind.length < (openParen :: rest).length := Nat.lt_succ_of_le (opening_length hgroup)
      rw [scan_group hgroup, ih _ hless _ _ _ ((kept_cons hparens).mp hkept).2 rfl, groups_opens hparens, numbered_cons]
    | @stands rest htext _ hparens =>
      subst htext
      obtain ⟨hnone, hrest⟩ := hkept.stands (hparens true rest)
      rw [scan_passed hnone, ih _ (Nat.lt_succ_self _) mode rest (out.copy [openParen]) hrest rfl,
        groups_stands (hparens true rest)]
      rfl

/-- What the scan hands over of a text. -/
def written (text : Bytes) : Bytes := (scan text ⟨[], []⟩).pattern

theorem scan_pattern (text : Bytes) (out : Translated) : (scan text out).pattern =
    out.pattern ++ written text := by
  induction hlength : text.length using Nat.strongRecOn generalizing text out with
  | _ length ih =>
    subst hlength
    have happ : ∀ {rest : Bytes} (first : Translated), rest.length < text.length →
        (scan rest first).pattern = first.pattern ++ written rest := fun first hless => ih _ hless _ first rfl
    cases turn .pattern text with
    | done htext =>
      subst htext
      rw [written, scan_nil, scan_nil, List.append_nil]
    | passed after read rest _ hless hscan _ _ _ =>
      rw [written, hscan, hscan, happ _ hless, happ _ hless, ← List.append_assoc]
      rfl
    | @group rest group htext _ hgroup =>
      subst htext
      have hless : group.behind.length < (openParen :: rest).length := Nat.lt_succ_of_le (opening_length hgroup)
      rw [written, scan_group hgroup, scan_group hgroup, happ _ hless, happ _ hless, ← List.append_assoc]
      rfl
    | stands _ hmode _ => exact absurd rfl hmode

theorem written_head (text : Bytes) : (written text).head? = text.head? := by
  cases turn .pattern text with
  | done htext => rw [htext, written, scan_nil]
  | passed after read rest htext hless hscan _ _ _ =>
    rw [written, hscan, scan_pattern]
    subst htext
    cases read with
    | nil => exact absurd hless (Nat.lt_irrefl _)
    | cons c read => rfl
  | @group rest group htext _ hgroup =>
    rw [written, htext, scan_group hgroup, scan_pattern]
    rfl
  | stands _ hmode _ => exact absurd rfl hmode

theorem written_append {read : Bytes} (h : ∀ out, scan text out = scan rest (out.copy read)) :
    written text = read ++ written rest := by
  rw [written, h, scan_pattern]
  rfl

theorem written_group (h : opening true rest = some group) :
    written (openParen :: rest) = openParen :: written group.behind := by
  rw [written, scan_group h, scan_pattern]
  rfl

/-- A group whose name goes is one no more if a question mark follows. -/
theorem opening_bares (h : opening true rest = some group) :
    (Paren.opens group).bares = true ↔ group.behind.head? = some question := by
  rw [Paren.bares, Bool.and_eq_true, decide_eq_true_iff, and_iff_right_iff_imp]
  intro hquestion
  unfold opening at h
  split at h
  · rw [if_pos rfl] at h
    obtain ⟨found, -, rfl⟩ := Option.map_eq_some_iff.mp h
    rfl
  · next hother =>
    obtain rfl := Option.some.inj h
    exact absurd hquestion hother

/-- The engine finds the groups of a text that is read right, but for those it cannot know as groups. -/
theorem written_groups (mode : Mode) (text : Bytes) (hkept : Kept mode text) :
    (groups false mode (written text)).length + (parens true mode text).countP Paren.bares =
      (groups true mode text).length := by
  induction hlength : text.length using Nat.strongRecOn generalizing mode text with
  | _ length ih =>
    subst hlength
    cases turn mode text with
    | done htext =>
      subst htext
      rw [written, scan_nil, groups, groups, parens_nil, parens_nil]
      rfl
    | passed after read rest htext hless hscan hnamed hengine _ =>
      have hread : groups false mode (written text) = groups false after (written rest) := by
        rw [written_append hscan]
        exact groups_same (hengine _ (written_head rest))
      rw [hread, hnamed, groups_same hnamed]
      exact ih _ hless after rest ((kept_same hnamed).mp hkept) rfl
    | @group rest group htext hmode hgroup =>
      subst htext hmode
      have hparens := parens_group hgroup
      have hless : group.behind.length < (openParen :: rest).length := Nat.lt_succ_of_le (opening_length hgroup)
      have hrest := ih _ hless _ _ ((kept_cons hparens).mp hkept).2 rfl
      rw [written_group hgroup, groups_opens hparens, hparens, List.countP_cons, List.length_cons, ← hrest]
      by_cases hquestion : group.behind.head? = some question
      · have hengine : parens false .pattern (openParen :: written group.behind) =
            parens false .pattern (written group.behind) := by
          rw [pattern_paren, opening, if_pos ((written_head _).trans hquestion)]
          rfl
        rw [groups_same hengine, if_pos ((opening_bares hgroup).mpr hquestion)]
        rfl
      · have hengine : parens false .pattern (openParen :: written group.behind) =
            .opens ⟨none, written group.behind⟩ :: parens false .pattern (written group.behind) := by
          rw [pattern_paren, opening, if_neg (mt (written_head _).symm.trans hquestion)]
        rw [groups_opens hengine, if_neg (mt (opening_bares hgroup).mp hquestion), List.length_cons]
        omega
    | @stands rest htext _ hparens =>
      subst htext
      obtain ⟨hnone, hrest⟩ := hkept.stands (hparens true rest)
      rw [written_append (scan_passed hnone), List.singleton_append, groups_stands (hparens false _),
        groups_stands (hparens true rest), hparens, List.countP_cons]
      exact ih _ (Nat.lt_succ_self _) mode rest hrest rfl

/-! ### A scan that is misled -/

/-- A text without a parenthesis is passed over, whatever comes to an end with it. -/
theorem passed_over (mode : Mode) (before behind : Bytes) {c : UInt8} (hc : c = greater ∨ c = quote)
    (hfree : openParen ∉ before) :
    ∃ after, parens true mode (before ++ c :: behind) = parens true after behind := by
  have hparen : c ≠ openParen := by rcases hc with rfl | rfl <;> decide
  induction hlength : before.length using Nat.strongRecOn generalizing mode before with
  | _ length ih =>
    subst hlength
    have hopens : ∀ rest, before ++ c :: behind ≠ openParen :: rest := by
      intro rest htext
      cases before with
      | nil => exact hparen (List.cons.inj htext).1
      | cons first before => exact hfree (by rw [(List.cons.inj htext).1]; exact List.mem_cons_self)
    cases turn mode (before ++ c :: behind) with
    | done htext => cases before <;> cases htext
    | passed after read rest htext hless _ hnamed _ hwhole =>
      have hmore : ∀ more, before = read ++ more → rest = more ++ c :: behind →
          ∃ after, parens true mode (before ++ c :: behind) = parens true after behind := by
        intro more hbefore hrest
        rw [hnamed, hrest]
        refine ih _ ?_ after more (fun hmem => hfree (hbefore ▸ List.mem_append_right _ hmem)) rfl
        rw [htext, List.length_append] at hless
        rw [hbefore, List.length_append]
        omega
      rcases List.append_eq_append_iff.mp htext with ⟨more, hread, hbehind⟩ | ⟨more, hbefore, hrest⟩
      · cases more with
        | nil => exact hmore [] (by rw [hread, List.append_nil, List.append_nil]) hbehind.symm
        | cons first more =>
          obtain ⟨rfl, hrest⟩ := List.cons.inj hbehind
          cases more with
          | nil => exact ⟨after, by rw [hnamed, hrest]; rfl⟩
          | cons second more =>
            -- no more than the last character of what was read may be one that ends a name
            have hmem : c ∈ read.dropLast := by
              rw [hread, List.dropLast_append_of_ne_nil (List.cons_ne_nil _ _), List.dropLast_cons_cons]
              exact List.mem_append_right _ List.mem_cons_self
            obtain ⟨hgreater, hquote⟩ := hwhole c hmem
            exact (hc.elim hgreater hquote).elim
      · exact hmore more hbefore hrest
    | group htext _ _ | stands htext _ _ => exact absurd htext (hopens _)

/-- So is what follows a parenthesis, up to where the group it would open begins. -/
theorem opening_passed (h : opening true rest = some group) (mode : Mode) :
    (∃ name, group.name = some name ∧ openParen ∈ name) ∨
      ∃ after, parens true mode rest = parens true after group.behind := by
  unfold opening at h
  split at h
  · next hquestion =>
    rw [if_pos rfl] at h
    obtain ⟨found, hfound, rfl⟩ := Option.map_eq_some_iff.mp h
    obtain ⟨mark, close, htext, -, hmark⟩ := opened_some hfound
    obtain ⟨behind, rfl⟩ := List.head?_eq_some_iff.mp hquestion
    rw [List.tail_cons] at htext
    subst htext
    by_cases hname : openParen ∈ found.name
    · exact .inl ⟨found.name, rfl, hname⟩
    · have hfree : openParen ∉ question :: mark :: found.name := by
        refine List.not_mem_cons_of_ne_of_not_mem (by decide) (List.not_mem_cons_of_ne_of_not_mem ?_ hname)
        rcases hmark with ⟨rfl, -⟩ | ⟨rfl, -⟩ <;> decide
      exact .inr (passed_over mode _ found.behind (hmark.imp And.right And.right) hfree)
  · obtain rfl := Option.some.inj h
    exact .inr ⟨mode, rfl⟩

/-- The scan finds too many groups in a text that it is misled by, and never too few, unless a parenthesis gets
into a name. -/
theorem scan_late (mode : Mode) (text : Bytes) (out : Translated) : ∃ names,
    (scan text out).names = out.names ++ names ∧
      ((∃ name ∈ names, openParen ∈ name) ∨
        (groups true mode text).length ≤ names.length ∧
          (¬ Kept mode text → (groups true mode text).length < names.length)) := by
  induction hlength : text.length using Nat.strongRecOn generalizing mode text out with
  | _ length ih =>
    subst hlength
    cases turn mode text with
    | done htext =>
      subst htext
      refine ⟨[], by rw [scan_nil, List.append_nil], .inr ⟨?_, fun hmisled => absurd ?_ hmisled⟩⟩
      · rw [groups, parens_nil]
        exact Nat.le_refl _
      · rw [Kept, parens_nil]
        exact fun _ hnone => nomatch hnone
    | passed after read rest _ hless hscan hnamed _ _ =>
      obtain ⟨names, hnames, hlate⟩ := ih _ hless after rest (out.copy read) rfl
      refine ⟨names, by rw [hscan, hnames]; rfl, hlate.imp_right fun hlate => ?_⟩
      rwa [groups_same hnamed, kept_same hnamed]
    | @group rest group htext hmode hgroup =>
      subst htext hmode
      have hparens := parens_group hgroup
      have hless : group.behind.length < (openParen :: rest).length := Nat.lt_succ_of_le (opening_length hgroup)
      obtain ⟨names, hnames, hlate⟩ := ih _ hless .pattern group.behind
        (out.group (group.name.getD (natText out.names.length))) rfl
      refine ⟨group.name.getD (natText out.names.length) :: names, ?_, hlate.imp ?_ ?_⟩
      · rw [scan_group hgroup, hnames, Translated.group, List.append_assoc, List.singleton_append]
      · exact fun ⟨name, hname, hmem⟩ => ⟨name, List.mem_cons_of_mem _ hname, hmem⟩
      · rw [groups_opens hparens, List.length_cons, List.length_cons, kept_cons hparens]
        exact fun ⟨hle, hlt⟩ => ⟨Nat.succ_le_succ hle, fun hmisled =>
          Nat.succ_lt_succ (hlt fun hkept => hmisled ⟨rfl, hkept⟩)⟩
    | @stands rest htext _ hparens =>
      subst htext
      cases hgroup : opening true rest with
      | none =>
        obtain ⟨names, hnames, hlate⟩ := ih _ (Nat.lt_succ_self _) mode rest (out.copy [openParen]) rfl
        refine ⟨names, by rw [scan_passed hgroup, hnames]; rfl, hlate.imp_right fun ⟨hle, hlt⟩ => ?_⟩
        rw [groups_stands (hparens true rest), kept_cons (hparens true rest)]
        refine ⟨hle, fun hmisled => hlt fun hkept => hmisled ⟨?_, hkept⟩⟩
        rw [Paren.misleads, hgroup]
        rfl
      | some group =>
        have hless : group.behind.length < (openParen :: rest).length := Nat.lt_succ_of_le (opening_length hgroup)
        have hscan := fun after => ih _ hless after group.behind
          (out.group (group.name.getD (natText out.names.length))) rfl
        rw [scan_group hgroup, groups_stands (hparens true rest)]
        rcases opening_passed hgroup mode with ⟨name, hname, hmem⟩ | ⟨after, hafter⟩
        · obtain ⟨names, hnames, -⟩ := hscan .pattern
          refine ⟨name :: names, ?_, .inl ⟨name, List.mem_cons_self, hmem⟩⟩
          rw [hnames, hname, Translated.group, List.append_assoc]
          rfl
        · obtain ⟨names, hnames, hlate⟩ := hscan after
          refine ⟨group.name.getD (natText out.names.length) :: names, ?_, hlate.imp ?_ fun hlate => ?_⟩
          · rw [hnames, Translated.group, List.append_assoc, List.singleton_append]
          · exact fun ⟨name, hname, hmem⟩ => ⟨name, List.mem_cons_of_mem _ hname, hmem⟩
          · rw [groups_same hafter, List.length_cons]
            exact ⟨Nat.le_succ_of_le hlate.1, fun _ => Nat.lt_succ_of_le hlate.1⟩

/-! ### What a name finds -/

/-- No group before or behind one has its name. -/
theorem named_split {groups : List Group} {g : Nat} {group : Group} (hg : groups[g]? = some group)
    (honly : ∀ i other, groups[i]? = some other → (other.name = name ↔ i = g)) :
    ∃ before after, groups = before ++ group :: after ∧ group.name = name ∧
      (∀ other ∈ before, other.name ≠ name) ∧ ∀ other ∈ after, other.name ≠ name := by
  obtain ⟨hlt, rfl⟩ := List.getElem?_eq_some_iff.mp hg
  refine ⟨groups.take g, groups.drop (g + 1), ?_, (honly g _ hg).mpr rfl, fun other hmem hname => ?_,
    fun other hmem hname => ?_⟩
  · rw [← List.drop_eq_getElem_cons hlt, List.take_append_drop]
  · obtain ⟨i, hi⟩ := List.mem_iff_getElem?.mp hmem
    have hbefore : i < g := by
      by_contra hge
      rw [List.getElem?_take_eq_none (Nat.le_of_not_lt hge)] at hi
      cases hi
    rw [List.getElem?_take_of_lt hbefore] at hi
    exact Nat.ne_of_lt hbefore ((honly i other hi).mp hname)
  · obtain ⟨i, hi⟩ := List.mem_iff_getElem?.mp hmem
    rw [List.getElem?_drop] at hi
    have := (honly _ other hi).mp hname
    omega

theorem item_of_split {before after : List Group} {group : Group}
    (hbefore : ∀ other ∈ before, other.name ≠ group.name) :
    item (before ++ group :: after) group.name = .ok group := by
  have hnone : before.find? (fun other => other.name = group.name) = none := by
    rw [List.find?_eq_none]
    exact fun other hmem heq => hbefore other hmem (of_decide_eq_true heq)
  rw [item, List.find?_append, hnone, Option.none_or]
  simp only [List.find?_cons, decide_true]

theorem replacement_other (groups : List Group) (h : ∀ other ∈ groups, other.name ≠ name) (out : Bytes) :
    groups.foldl (fun out group => if group.name = name then out ++ group.value else out) out = out := by
  induction groups with
  | nil => rfl
  | cons group rest ih =>
    rw [List.forall_mem_cons] at h
    rw [List.foldl_cons, if_neg h.1, ih h.2]

theorem replacement_of_split {before after : List Group} {group : Group}
    (hbefore : ∀ other ∈ before, other.name ≠ group.name) (hafter : ∀ other ∈ after, other.name ≠ group.name) :
    namedReplacement (before ++ group :: after) group.name = group.value := by
  rw [namedReplacement, List.foldl_append, replacement_other _ hbefore, List.foldl_cons, if_pos rfl,
    replacement_other _ hafter, List.nil_append]

theorem upTo_of_free {close : UInt8} (h : close ∉ name) (behind : Bytes) :
    upTo close (name ++ close :: behind) = some ⟨name, behind⟩ := by
  induction name with
  | nil => rw [List.nil_append, upTo, if_pos rfl]
  | cons c rest ih =>
    rw [List.mem_cons, not_or] at h
    rw [List.cons_append, upTo, if_neg (Ne.symm h.1), ih h.2]
    rfl

/-- A name in a replacement. -/
theorem result_name (groups : List Group) (h : closeBrace ∉ name) :
    result groups (dollar :: openBrace :: (name ++ [closeBrace])) = some (namedReplacement groups name) := by
  rw [result.eq_def]
  simp only [ne_eq, not_true, if_false, show openBrace ≠ dollar by decide]
  have hname := upTo_of_free h []
  split
  · next found hfound =>
    rw [if_pos rfl, hname] at hfound
    obtain rfl := Option.some.inj hfound
    rw [result, Option.map_some, List.append_nil]
  · next hnone =>
    rw [if_pos rfl, hname] at hnone
    cases hnone

/-- The names point at the groups: each group's entry is its name, and what its name finds, if no other group has
it, is what the engine found for that group. -/
structure Points (pattern : Bytes) : Prop where
  names : (withoutNamedGroups pattern).names = declared pattern
  length : (withoutNamedGroups pattern).names.length = 1 + captures (withoutNamedGroups pattern).pattern
  found : ∀ (found : List SubMatch) (offset : Nat), found.length =
      1 + captures (withoutNamedGroups pattern).pattern →
    ∀ (g : Nat) (name : Bytes), (declared pattern)[g]? = some name →
      (∀ other, (declared pattern)[other]? = some name → other = g) →
      groupNameFromNumber (withoutNamedGroups pattern).names g = name ∧
      groupNumberFromName (withoutNamedGroups pattern).names name = g ∧
      ∃ sub, found[g]? = some sub ∧
        item (matchOf found offset (withoutNamedGroups pattern).names) name =
          .ok ⟨sub.position + offset, sub.str, sub.matched, name⟩ ∧
        (closeBrace ∉ name → result (matchOf found offset (withoutNamedGroups pattern).names)
          (dollar :: openBrace :: (name ++ [closeBrace])) = some sub.str)

theorem groups_of_match (found : List SubMatch) (offset : Nat) (names : List Bytes) (i : Nat) :
    (matchOf found offset names)[i]? =
      found[i]?.map fun sub => ⟨sub.position + offset, sub.str, sub.matched, names.getD i (natText i)⟩ := by
  rw [matchOf, List.getElem?_mapIdx]

/-- A list of names as long as the list of groups finds each group whose name no other has. -/
theorem found_of_names {names : List Bytes} {found : List SubMatch} (hlength : found.length = names.length)
    (offset : Nat) {g : Nat} (hg : names[g]? = some name)
    (honly : ∀ other : Nat, names[other]? = some name → other = g) :
    groupNameFromNumber names g = name ∧ groupNumberFromName names name = g ∧
      ∃ sub, found[g]? = some sub ∧
        item (matchOf found offset names) name = .ok ⟨sub.position + offset, sub.str, sub.matched, name⟩ ∧
        (closeBrace ∉ name →
          result (matchOf found offset names) (dollar :: openBrace :: (name ++ [closeBrace])) = some sub.str) := by
  obtain ⟨hlt, hname⟩ := List.getElem?_eq_some_iff.mp hg
  refine ⟨?_, ?_, ?_⟩
  · have hin : ¬ ((g : Int) < 0 ∨ names.length ≤ (g : Int).toNat) := by omega
    rw [groupNameFromNumber, if_neg hin, Int.toNat_natCast, List.getD_eq_getElem?_getD, hg, Option.getD_some]
  · rw [groupNumberFromName]
    cases hfind : names.findIdx? fun other => decide (other = name) with
    | none =>
      rw [List.findIdx?_eq_none_iff] at hfind
      have := hfind name (hname ▸ List.getElem_mem hlt)
      rw [decide_eq_false_iff_not] at this
      exact absurd rfl this
    | some number =>
      obtain ⟨hnumber, hsame, -⟩ := List.findIdx?_eq_some_iff_getElem.mp hfind
      rw [honly number (List.getElem?_eq_some_iff.mpr ⟨hnumber, of_decide_eq_true hsame⟩)]
  · have hsub : found[g]? = some found[g] := List.getElem?_eq_getElem (hlength ▸ hlt)
    have hgroup : (matchOf found offset names)[g]? =
        some ⟨found[g].position + offset, found[g].str, found[g].matched, name⟩ := by
      rw [groups_of_match, hsub, Option.map_some, List.getD_eq_getElem?_getD, hg, Option.getD_some]
    have hnamed : ∀ i other, (matchOf found offset names)[i]? = some other → (other.name = name ↔ i = g) := by
      intro i other hi
      rw [groups_of_match, Option.map_eq_some_iff] at hi
      obtain ⟨sub, hsub, rfl⟩ := hi
      have hi : i < names.length := hlength ▸ (List.getElem?_eq_some_iff.mp hsub).1
      have hentry : names[i]? = some (names.getD i (natText i)) := by
        rw [List.getD_eq_getElem?_getD, List.getElem?_eq_getElem hi, Option.getD_some]
      exact ⟨fun hsame => honly i (hentry.trans (congrArg some hsame)), fun hsame => by
        rw [hsame, List.getD_eq_getElem?_getD, hg, Option.getD_some]⟩
    obtain ⟨before, after, hsplit, -, hbefore, hafter⟩ := named_split hgroup hnamed
    rw [hsplit]
    exact ⟨_, hsub, item_of_split hbefore, fun hfree => by
      rw [result_name _ hfree]
      exact congrArg some (replacement_of_split hbefore hafter)⟩

theorem points_iff (pattern : Bytes) :
    Points pattern ↔ (withoutNamedGroups pattern).names = declared pattern ∧
      (withoutNamedGroups pattern).names.length = 1 + captures (withoutNamedGroups pattern).pattern := by
  refine ⟨fun h => ⟨h.names, h.length⟩, fun ⟨hnames, hlength⟩ => ⟨hnames, hlength, ?_⟩⟩
  intro found offset hfound g name hg honly
  rw [← hnames] at hg honly
  exact found_of_names (hfound.trans hlength.symm) offset hg honly

/-- A scan that no parenthesis deceives points at the right groups; if no name holds a parenthesis, no other does.
-/
theorem group_names (pattern : Bytes) :
    (Clean pattern → Points pattern) ∧
      ((∀ name ∈ declared pattern, openParen ∉ name) → (Points pattern ↔ Clean pattern)) := by
  have hclean : Clean pattern ↔
      Kept .pattern pattern ∧ (parens true .pattern pattern).countP Paren.bares = 0 := by
    rw [Clean, Kept, List.countP_eq_zero, ← forall₂_and]
    simp only [Bool.not_eq_true]
  have hkept : Kept .pattern pattern → (withoutNamedGroups pattern).names = declared pattern ∧
      ((withoutNamedGroups pattern).names.length = 1 + captures (withoutNamedGroups pattern).pattern ↔
        (parens true .pattern pattern).countP Paren.bares = 0) := by
    intro hkept
    have hnames : (withoutNamedGroups pattern).names = declared pattern :=
      scan_names .pattern pattern ⟨[], [[zero]]⟩ hkept
    have hpattern : (withoutNamedGroups pattern).pattern = written pattern := scan_pattern pattern ⟨[], [[zero]]⟩
    have hgroups := written_groups .pattern pattern hkept
    refine ⟨hnames, ?_⟩
    rw [hnames, hpattern, declared, List.length_cons, numbered_length, captures]
    omega
  have hright : Clean pattern → Points pattern := fun h => by
    obtain ⟨hmisled, hbares⟩ := hclean.mp h
    obtain ⟨hnames, hlength⟩ := hkept hmisled
    exact (points_iff pattern).mpr ⟨hnames, hlength.mpr hbares⟩
  refine ⟨hright, fun hplain => ⟨fun hpoints => ?_, hright⟩⟩
  have hmisled : Kept .pattern pattern := by
    obtain ⟨names, hscan, hlate⟩ := scan_late .pattern pattern ⟨[], [[zero]]⟩
    have hsame : names = numbered 1 (groups true .pattern pattern) :=
      List.append_cancel_left (hscan.symm.trans hpoints.names)
    by_contra hmisled
    rcases hlate with ⟨name, hname, hmem⟩ | ⟨-, hlate⟩
    · exact hplain name (List.mem_cons_of_mem _ (hsame ▸ hname)) hmem
    · have := hlate hmisled
      rw [hsame, numbered_length] at this
      exact Nat.lt_irrefl _ this
  exact hclean.mpr ⟨hmisled, (hkept hmisled).2.mp hpoints.length⟩

/-- `\((?<x>a)[)](b)` -/
def mixed : Bytes := [92, 40, 40, 63, 60, 120, 62, 97, 41, 91, 41, 93, 40, 98, 41]

theorem group_names_mixed : Points mixed := by
  have hx : opening true [63, 60, 120, 62, 97, 41, 91, 41, 93, 40, 98, 41] =
      some ⟨some [120], [97, 41, 91, 41, 93, 40, 98, 41]⟩ := rfl
  have hb : opening true [98, 41] = some ⟨none, [98, 41]⟩ := rfl
  have hparens : parens true .pattern mixed =
      [.opens ⟨some [120], [97, 41, 91, 41, 93, 40, 98, 41]⟩, .opens ⟨none, [98, 41]⟩] := by
    rw [mixed, pattern_escape, List.tail_cons, parens_group hx]
    rw [pattern_plain true (by decide) (by decide) (by decide), pattern_plain true (by decide) (by decide) (by decide)]
    rw [pattern_bracket, set_plain true (by decide) (by decide) (by decide) (by decide), set_close, parens_group hb]
    rw [pattern_plain true (by decide) (by decide) (by decide), pattern_plain true (by decide) (by decide) (by decide)]
    rw [parens_nil]
  apply (group_names mixed).1
  rw [Clean, hparens]
  decide

/-- `[(](?<x>a)` -/
def inSet : Bytes := [91, 40, 93, 40, 63, 60, 120, 62, 97, 41]

/-- The parenthesis of a set is counted, and the name of the group is that of a group the engine has not. -/
theorem group_names_set :
    withoutNamedGroups inSet = ⟨[91, 40, 93, 40, 97, 41], [[48], [49], [120]]⟩ ∧
      declared inSet = [[48], [120]] ∧ captures [91, 40, 93, 40, 97, 41] = 1 ∧
      (∀ whole group : SubMatch, item (matchOf [whole, group] 0 (withoutNamedGroups inSet).names) [120] =
        .error (ascii "no group is named 'x'")) ∧ ¬ Points inSet := by
  have hset : opening true [93, 40, 63, 60, 120, 62, 97, 41] = some ⟨none, [93, 40, 63, 60, 120, 62, 97, 41]⟩ :=
      rfl
  have hx : opening true [63, 60, 120, 62, 97, 41] = some ⟨some [120], [97, 41]⟩ := rfl
  have hscan : withoutNamedGroups inSet = ⟨[91, 40, 93, 40, 97, 41], [[48], [49], [120]]⟩ := by
    rw [withoutNamedGroups, inSet, scan_copy (by decide) (by decide), scan_group hset,
      scan_copy (by decide) (by decide), scan_group hx, scan_copy (by decide) (by decide),
      scan_copy (by decide) (by decide), scan_nil]
    decide
  have hdeclared : declared inSet = [[48], [120]] := by
    rw [declared, groups, inSet, pattern_bracket, set_paren, set_close, parens_group hx]
    rw [pattern_plain true (by decide) (by decide) (by decide), pattern_plain true (by decide) (by decide) (by decide)]
    rw [parens_nil]
    decide
  have hcaptures : captures [91, 40, 93, 40, 97, 41] = 1 := by
    have ha : opening false [97, 41] = some ⟨none, [97, 41]⟩ := rfl
    rw [captures, groups, pattern_bracket, set_paren, set_close, pattern_paren, ha]
    simp only [pattern_plain false (c := 97) (by decide) (by decide) (by decide),
      pattern_plain false (c := 41) (by decide) (by decide) (by decide), parens_nil]
    rfl
  refine ⟨hscan, hdeclared, hcaptures, fun whole group => ?_, fun hpoints => ?_⟩
  · rw [hscan]
    rfl
  have := hpoints.names
  rw [hscan, hdeclared] at this
  cases this

end Agiru.Regex
