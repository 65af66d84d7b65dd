import Agiru.Library.Bytes

/-! The names of a regular expression's groups.

The engine knows no named groups, so a pattern is handed over without their names (`WithoutNamedGroups`), and the
names are kept beside it, one for each group in the order of the opening parentheses. The scan that does this
knows escapes, but not sets, in which a parenthesis opens nothing: a pattern is `Clean` if none in a set deceives
it, and no name stood between a parenthesis and a question mark. -/
namespace Agiru.Regex
open Bytes

variable {rest : Bytes} {c : UInt8}

namespace Ch
abbrev exclamation : UInt8 := 33
abbrev dollar : UInt8 := 36
abbrev colon : UInt8 := 58
abbrev openBracket : UInt8 := 91
abbrev backslash : UInt8 := 92
abbrev closeBracket : UInt8 := 93
abbrev openBrace : UInt8 := 123
abbrev closeBrace : UInt8 := 125
end Ch
open Bytes.Ch Ch

/-! ### The scan -/

/-- A name, and what stands behind the character that ends it. -/
structure Opened where
  name : Bytes
  behind : Bytes
  deriving DecidableEq

/-- The text up to the first character of a kind. -/
def upTo (close : UInt8) : Bytes → Option Opened
  | [] => none
  | c :: rest =>
    if c = close then some ⟨[], rest⟩
    else (upTo close rest).map fun found => { found with name := c :: found.name }

/-- The name of a group that begins with these characters behind `(?`. -/
def opened : Bytes → Option Opened
  | mark :: first :: rest =>
    if (mark = less ∨ mark = quote) ∧ first ≠ equals ∧ first ≠ exclamation then
      upTo (if mark = less then greater else quote) (first :: rest)
    else none
  | _ => none

/-- `Translated`. -/
structure Translated where
  pattern : Bytes
  names : List Bytes
  deriving DecidableEq

/-- The scan copies these characters. -/
def Translated.copy (out : Translated) (text : Bytes) : Translated := { out with pattern := out.pattern ++ text }

/-- It comes to a group of this name. -/
def Translated.group (out : Translated) (name : Bytes) : Translated :=
  { pattern := out.pattern ++ [openParen], names := out.names ++ [name] }

theorem upTo_some {close : UInt8} {text : Bytes} {found : Opened} (h : upTo close text = some found) :
    text = found.name ++ close :: found.behind ∧ close ∉ found.name := by
  induction text generalizing found with
  | nil => cases h
  | cons c rest ih =>
    rw [upTo] at h
    split at h
    · next hclose =>
      obtain rfl := Option.some.inj h
      exact ⟨by rw [hclose]; rfl, List.not_mem_nil⟩
    · next hother =>
      obtain ⟨inner, hinner, rfl⟩ := Option.map_eq_some_iff.mp h
      obtain ⟨htext, hfree⟩ := ih hinner
      exact ⟨by rw [htext]; rfl, List.not_mem_cons_of_ne_of_not_mem (Ne.symm hother) hfree⟩

theorem opened_some {text : Bytes} {found : Opened} (h : opened text = some found) :
    ∃ mark close, text = mark :: (found.name ++ close :: found.behind) ∧ close ∉ found.name ∧
      (mark = less ∧ close = greater ∨ mark = quote ∧ close = quote) := by
  unfold opened at h
  split at h
  · next mark first rest =>
    split at h
    · next hmark =>
      obtain ⟨htext, hfree⟩ := upTo_some h
      refine ⟨mark, _, by rw [htext], hfree, ?_⟩
      rcases hmark.1 with rfl | rfl
      · exact .inl ⟨rfl, rfl⟩
      · exact .inr ⟨rfl, rfl⟩
    · cases h
  · cases h

theorem opened_length {text : Bytes} {found : Opened} (h : opened text = some found) :
    found.behind.length < text.length := by
  obtain ⟨mark, close, rfl, -⟩ := opened_some h
  simp only [List.length_cons, List.length_append]
  omega

/-- The loop of `WithoutNamedGroups`, over what is left of the pattern. -/
def scan : Bytes → Translated → Translated
  | [], out => out
  | c :: rest, out =>
    if c = backslash then
      match rest with
      | [] => out.copy [c]
      | escaped :: rest => scan rest (out.copy [c, escaped])
    else if c = openParen then
      match rest with
      | [] => out.group (natText out.names.length)
      | next :: behind =>
        if next = question then
          match _hfound : opened behind with
          | some found => scan found.behind (out.group found.name)
          | none => scan (next :: behind) (out.copy [c])
        else scan (next :: behind) (out.group (natText out.names.length))
    else scan rest (out.copy [c])
termination_by text => text.length
decreasing_by
  all_goals simp only [List.length_cons]
  all_goals first | omega | (have hless := opened_length ‹_›; omega)

/-- `WithoutNamedGroups`. -/
def withoutNamedGroups (pattern : Bytes) : Translated := scan pattern ⟨[], [[zero]]⟩

/-! ### What a pattern declares -/

/-- What may stand in brackets of its own in a set: an element, a class of equal ones or a class of characters. -/
inductive Item
  | element | equivalence | characters
  deriving DecidableEq

/-- The character at both its ends. -/
def Item.mark : Item → UInt8
  | .element => dot
  | .equivalence => equals
  | .characters => colon

def Item.of (c : UInt8) : Option Item :=
  if c = dot then some .element
  else if c = equals then some .equivalence
  else if c = colon then some .characters
  else none

/-- Where in a pattern a character stands. -/
inductive Mode
  | pattern | set | item (kind : Item)
  deriving DecidableEq

/-- A parenthesis that captures: the group's name and what follows. -/
structure Opening where
  name : Option Bytes
  behind : Bytes
  deriving DecidableEq

/-- What a parenthesis before this text opens, if groups may have names and if they may not. -/
def opening (named : Bool) (rest : Bytes) : Option Opening :=
  if rest.head? = some question then
    if named then (opened rest.tail).map fun found => ⟨some found.name, found.behind⟩ else none
  else some ⟨none, rest⟩

/-- An opening parenthesis: one that captures, or one that stands in a set before this text. -/
inductive Paren
  | opens (group : Opening)
  | stands (behind : Bytes)
  deriving DecidableEq

theorem opening_length {named : Bool} {group : Opening} (h : opening named rest = some group) :
    group.behind.length ≤ rest.length := by
  unfold opening at h
  split at h
  · split at h
    · obtain ⟨found, hfound, rfl⟩ := Option.map_eq_some_iff.mp h
      have := opened_length hfound
      rw [List.length_tail] at this
      exact Nat.le_trans (Nat.le_of_lt this) (Nat.sub_le _ _)
    · cases h
  · obtain rfl := Option.some.inj h
    exact Nat.le_refl _

/-- The opening parentheses of a text in the engine's grammar, but for escaped ones. An escape is a backslash and a
character: what else may belong to one is letters and digits. -/
def parens (named : Bool) : Mode → Bytes → List Paren
  | _, [] => []
  | .pattern, c :: rest =>
    if c = backslash then parens named .pattern rest.tail
    else if c = openBracket then parens named .set rest
    else if c = openParen then
      match _hgroup : opening named rest with
      | some group => .opens group :: parens named .pattern group.behind
      | none => parens named .pattern rest
    else parens named .pattern rest
  | .set, c :: rest =>
    if c = backslash then parens named .set rest.tail
    else if c = closeBracket then parens named .pattern rest
    else if c = openBracket then
      match rest.head?.bind Item.of with
      | some kind => parens named (.item kind) rest.tail
      | none => parens named .set rest
    else if c = openParen then .stands rest :: parens named .set rest
    else parens named .set rest
  | .item kind, c :: rest =>
    if c = kind.mark ∧ rest.head? = some closeBracket then parens named .set rest.tail
    else if c = backslash then
      match rest with
      | [] => []
      | next :: rest =>
        if next = kind.mark ∧ rest.head? = some closeBracket then parens named .set rest.tail
        else parens named (.item kind) rest
    else if c = openParen then .stands rest :: parens named (.item kind) rest
    else parens named (.item kind) rest
termination_by _ text => text.length
decreasing_by
  all_goals simp only [List.length_cons, List.length_tail]
  all_goals first | omega | (have hless := opening_length ‹_›; omega)

/-- The group a parenthesis opens. -/
def Paren.group : Paren → Option Opening
  | .opens group => some group
  | .stands _ => none

/-- The groups of a text. -/
def groups (named : Bool) (mode : Mode) (text : Bytes) : List Opening :=
  (parens named mode text).filterMap Paren.group

/-- The names of groups, the first of which has this number. -/
def numbered : Nat → List Opening → List Bytes
  | _, [] => []
  | number, group :: rest => group.name.getD (natText number) :: numbered (number + 1) rest

/-- The names of a pattern's groups: the whole match is group 0. -/
def declared (pattern : Bytes) : List Bytes := [zero] :: numbered 1 (groups true .pattern pattern)

/-- How many groups the engine finds in a pattern. -/
def captures (pattern : Bytes) : Nat := (groups false .pattern pattern).length

/-- A parenthesis in a set that would open a group in front of it. -/
def Paren.misleads : Paren → Bool
  | .opens _ => false
  | .stands behind => (opening true behind).isSome

/-- A parenthesis that would open nothing without the name behind it. -/
def Paren.bares : Paren → Bool
  | .opens group => group.name.isSome && group.behind.head? = some question
  | .stands _ => false

/-- No parenthesis of a pattern deceives the scan. -/
def Clean (pattern : Bytes) : Prop :=
  ∀ paren ∈ parens true .pattern pattern, paren.misleads = false ∧ paren.bares = false

/-! ### A match -/

/-- A group as the engine finds it. -/
structure SubMatch where
  position : Nat
  str : Bytes
  matched : Bool

/-- `Group`. -/
structure Group where
  index : Nat
  value : Bytes
  success : Bool
  name : Bytes

/-- The groups of `MatchOf`. -/
def matchOf (found : List SubMatch) (offset : Nat) (names : List Bytes) : List Group :=
  found.mapIdx fun g sub => ⟨sub.position + offset, sub.str, sub.matched, names.getD g (natText g)⟩

/-- `NamedReplacement`. -/
def namedReplacement (groups : List Group) (name : Bytes) : Bytes :=
  groups.foldl (fun out group => if group.name = name then out ++ group.value else out) []

/-- `GroupCollection::Item`, by name. -/
def item (groups : List Group) (name : Bytes) : Except Bytes Group :=
  match groups.find? fun group => group.name = name with
  | some group => .ok group
  | none => .error (ascii "no group is named '" ++ name ++ [quote])

/-- `GroupNameFromNumber`. -/
def groupNameFromNumber (names : List Bytes) (number : Int) : Bytes :=
  if number < 0 ∨ names.length ≤ number.toNat then [] else names.getD number.toNat []

/-- `GroupNumberFromName`. -/
def groupNumberFromName (names : List Bytes) (name : Bytes) : Int :=
  match names.findIdx? fun other => other = name with
  | some number => number
  | none => -1

/-- `Result`, over what is left of the replacement; no text if a number is out of range. -/
def result (groups : List Group) : Bytes → Option Bytes
  | [] => some []
  | [c] => some [c]
  | c :: next :: rest =>
    if c ≠ dollar then (result groups (next :: rest)).map (c :: ·)
    else if next = dollar then (result groups rest).map (c :: ·)
    else
      match _hname : if next = openBrace then upTo closeBrace rest else none with
      | some found => (result groups found.behind).map (namedReplacement groups found.name ++ ·)
      | none =>
        if isDigit next then
          if 2 ^ 64 ≤ digitsValue ((next :: rest).takeWhile isDigit) then none
          else (result groups (rest.dropWhile isDigit)).map
            ((groups[digitsValue ((next :: rest).takeWhile isDigit)]?.elim [] Group.value) ++ ·)
        else (result groups (next :: rest)).map (c :: ·)
termination_by text => text.length
decreasing_by
  all_goals simp only [List.length_cons]
  all_goals first
    | omega
    | (have hless := List.length_dropWhile_le isDigit rest; omega)
    | (split at _hname
       · have := congrArg List.length (upTo_some _hname).1
         simp only [List.length_append, List.length_cons] at this
         omega
       · cases _hname)

/-! ### One turn of the scan -/

theorem scan_nil (out : Translated) : scan [] out = out := by rw [scan]

theorem scan_escape (escaped : UInt8) (rest : Bytes) (out : Translated) :
    scan (backslash :: escaped :: rest) out = scan rest (out.copy [backslash, escaped]) := by
  rw [scan, if_pos rfl]

theorem scan_backslash (out : Translated) : scan [backslash] out = out.copy [backslash] := by
  rw [scan, if_pos rfl]

theorem scan_copy (hescape : c ≠ backslash) (hparen : c ≠ openParen) (rest : Bytes)
    (out : Translated) : scan (c :: rest) out = scan rest (out.copy [c]) := by
  rw [scan.eq_def]
  simp only [hescape, hparen, if_false]

/-- A parenthesis is counted if it would open a group, wherever it stands. -/
theorem scan_paren (rest : Bytes) (out : Translated) :
    scan (openParen :: rest) out =
      match opening true rest with
      | some group => scan group.behind (out.group (group.name.getD (natText out.names.length)))
      | none => scan rest (out.copy [openParen]) := by
  rw [scan.eq_def]
  simp only [show openParen ≠ backslash by decide, if_false, if_true]
  cases rest with
  | nil => simp only [opening, List.head?_nil, reduceCtorEq, if_false, Option.getD_none, scan_nil]
  | cons next behind =>
    by_cases hnext : next = question
    · subst hnext
      simp only [opening, List.head?_cons, List.tail_cons, if_true]
      cases opened behind with
      | none | some found => rfl
    · have hhead : ¬ some next = some question := fun heq => hnext (Option.some.inj heq)
      simp only [opening, List.head?_cons, hnext, hhead, if_false, Option.getD_none]

theorem scan_group {group : Opening} (h : opening true rest = some group) (out : Translated) :
    scan (openParen :: rest) out = scan group.behind (out.group (group.name.getD (natText out.names.length))) := by
  rw [scan_paren, h]

theorem scan_passed (h : opening true rest = none) (out : Translated) :
    scan (openParen :: rest) out = scan rest (out.copy [openParen]) := by
  rw [scan_paren, h]

/-! ### One turn of the reader -/

section
variable (named : Bool)

theorem parens_nil (mode : Mode) : parens named mode [] = [] := by cases mode <;> rw [parens]

theorem pattern_escape (rest : Bytes) :
    parens named .pattern (backslash :: rest) = parens named .pattern rest.tail := by
  rw [parens.eq_def]
  simp only [if_true]

theorem pattern_bracket (rest : Bytes) :
    parens named .pattern (openBracket :: rest) = parens named .set rest := by
  rw [parens.eq_def]
  simp only [show openBracket ≠ backslash by decide, if_false, if_true]

theorem pattern_paren (rest : Bytes) :
    parens named .pattern (openParen :: rest) =
      match opening named rest with
      | some group => .opens group :: parens named .pattern group.behind
      | none => parens named .pattern rest := by
  rw [parens.eq_def]
  simp only [show openParen ≠ backslash by decide, show openParen ≠ openBracket by decide, if_false, if_true]
  cases opening named rest with
  | none | some group => rfl

theorem pattern_plain (hescape : c ≠ backslash) (hbracket : c ≠ openBracket) (hparen : c ≠ openParen)
    (rest : Bytes) : parens named .pattern (c :: rest) = parens named .pattern rest := by
  rw [parens.eq_def]
  simp only [hescape, hbracket, hparen, if_false]

theorem set_escape (rest : Bytes) : parens named .set (backslash :: rest) = parens named .set rest.tail := by
  rw [parens.eq_def]
  simp only [if_true]

theorem set_close (rest : Bytes) : parens named .set (closeBracket :: rest) = parens named .pattern rest := by
  rw [parens.eq_def]
  simp only [show closeBracket ≠ backslash by decide, if_false, if_true]

theorem set_bracket (rest : Bytes) :
    parens named .set (openBracket :: rest) =
      match rest.head?.bind Item.of with
      | some kind => parens named (.item kind) rest.tail
      | none => parens named .set rest := by
  rw [parens.eq_def]
  simp only [show openBracket ≠ backslash by decide, show openBracket ≠ closeBracket by decide, if_false, if_true]

theorem set_paren (rest : Bytes) :
    parens named .set (openParen :: rest) = .stands rest :: parens named .set rest := by
  rw [parens.eq_def]
  simp only [show openParen ≠ backslash by decide, show openParen ≠ closeBracket by decide,
    show openParen ≠ openBracket by decide, if_false, if_true]

theorem set_plain (hescape : c ≠ backslash) (hclose : c ≠ closeBracket) (hbracket : c ≠ openBracket)
    (hparen : c ≠ openParen) (rest : Bytes) : parens named .set (c :: rest) = parens named .set rest := by
  rw [parens.eq_def]
  simp only [hescape, hclose, hbracket, hparen, if_false]

theorem item_close (kind : Item) (rest : Bytes) :
    parens named (.item kind) (kind.mark :: closeBracket :: rest) = parens named .set rest := by
  rw [parens.eq_def]
  simp only [List.head?_cons, List.tail_cons, and_self, if_true]

theorem mark_plain (kind : Item) :
    kind.mark ≠ backslash ∧ kind.mark ≠ openParen ∧ kind.mark ≠ greater ∧ kind.mark ≠ quote := by
  cases kind <;> decide

theorem item_escape {kind : Item} {next : UInt8} (h : ¬ (next = kind.mark ∧ rest.head? = some closeBracket)) :
    parens named (.item kind) (backslash :: next :: rest) = parens named (.item kind) rest := by
  rw [parens.eq_def]
  simp only [(mark_plain kind).1.symm, false_and, if_false, if_true, h]

theorem item_escape_close (kind : Item) (rest : Bytes) :
    parens named (.item kind) (backslash :: kind.mark :: closeBracket :: rest) = parens named .set rest := by
  rw [parens.eq_def]
  simp only [(mark_plain kind).1.symm, false_and, if_false, if_true, List.head?_cons, List.tail_cons, and_self]

theorem item_backslash (kind : Item) : parens named (.item kind) [backslash] = [] := by
  rw [parens.eq_def]
  simp only [(mark_plain kind).1.symm, false_and, if_false, if_true]

theorem item_paren (kind : Item) (rest : Bytes) :
    parens named (.item kind) (openParen :: rest) = .stands rest :: parens named (.item kind) rest := by
  rw [parens.eq_def]
  simp only [(mark_plain kind).2.1.symm, false_and, show openParen ≠ backslash by decide, if_false, if_true]

theorem item_plain {kind : Item}
    (hopen : ¬ (c = kind.mark ∧ rest.head? = some closeBracket)) (hescape : c ≠ backslash)
    (hparen : c ≠ openParen) : parens named (.item kind) (c :: rest) = parens named (.item kind) rest := by
  rw [parens.eq_def]
  simp only [hopen, hescape, hparen, if_false]

end

/-! ### Both at once -/

/-- What both readers do at the head of a text: they pass over some of it, or come to a parenthesis that opens a
group, or to one in a set. -/
inductive Turn (mode : Mode) (text : Bytes) : Prop
  | done (htext : text = [])
  | passed (after : Mode) (read rest : Bytes) (htext : text = read ++ rest)
    (hless : rest.length < text.length)
    (hscan : ∀ out, scan text out = scan rest (out.copy read))
    (hnamed : parens true mode text = parens true after rest)
    (hengine : ∀ other : Bytes, other.head? = rest.head? →
      parens false mode (read ++ other) = parens false after other)
    (hwhole : ∀ c ∈ read.dropLast, c ≠ greater ∧ c ≠ quote)
  | group {rest : Bytes} {group : Opening} (htext : text = openParen :: rest) (hmode : mode = .pattern)
    (hgroup : opening true rest = some group)
  | stands {rest : Bytes} (htext : text = openParen :: rest) (hmode : mode ≠ .pattern)
    (hparens : ∀ named other, parens named mode (openParen :: other) = .stands other :: parens named mode other)

/-- One character that is copied. -/
theorem Turn.one {mode after : Mode} (hescape : c ≠ backslash) (hparen : c ≠ openParen)
    (h : ∀ named (other : Bytes), other.head? = rest.head? →
      parens named mode (c :: other) = parens named after other) : Turn mode (c :: rest) :=
  .passed after [c] rest rfl (by simp only [List.length_cons]; omega) (fun _ => scan_copy hescape hparen rest _)
      (h _ rest rfl) (h _)
    fun _ hnone => nomatch hnone

/-- A backslash and what it escapes. -/
theorem Turn.escape {mode after : Mode} {next : UInt8}
    (h : ∀ named (other : Bytes), other.head? = rest.head? →
      parens named mode (backslash :: next :: other) = parens named after other) :
    Turn mode (backslash :: next :: rest) := by
  refine .passed after [Ch.backslash, next] rest rfl (by simp only [List.length_cons]; omega)
      (fun _ => scan_escape next rest _)
    (h _ rest rfl) (h _) fun c hc => ?_
  obtain rfl := List.mem_singleton.mp hc
  decide

/-- A backslash at the end. -/
theorem Turn.backslash {mode : Mode} (h : ∀ named, parens named mode [backslash] = []) :
    Turn mode [Ch.backslash] := by
  refine .passed .pattern [Ch.backslash] [] rfl (by simp only [List.length_cons]; omega) (fun out => ?_) ?_
      (fun other hother => ?_)
    fun _ hnone => nomatch hnone
  · rw [scan_backslash, scan_nil]
  · rw [h, parens_nil]
  · obtain rfl := List.head?_eq_none_iff.mp hother
    rw [List.append_nil, h, parens_nil]

theorem copy_copy (out : Translated) (first second : Bytes) :
    (out.copy first).copy second = out.copy (first ++ second) := by
  rw [Translated.copy, Translated.copy, Translated.copy, List.append_assoc]

/-- Two characters that are copied. -/
theorem Turn.two {mode : Mode} (after : Mode) {next : UInt8}
    (hc : c ≠ Ch.backslash ∧ c ≠ openParen ∧ c ≠ greater ∧ c ≠ quote) (hescape : next ≠ Ch.backslash)
    (hparen : next ≠ openParen)
    (h : ∀ named (other : Bytes), parens named mode (c :: next :: other) = parens named after other) :
    Turn mode (c :: next :: rest) := by
  refine .passed after [c, next] rest rfl (by simp only [List.length_cons]; omega) (fun out => ?_) (h _ rest)
      (fun other _ => h _ other)
    fun d hd => ?_
  · rw [scan_copy hc.1 hc.2.1, scan_copy hescape hparen, copy_copy]
    rfl
  · obtain rfl := List.mem_singleton.mp hd
    exact hc.2.2

theorem of_eq_some {kind : Item} (h : Item.of c = some kind) : c = kind.mark := by
  unfold Item.of at h
  split at h
  · next hc => rw [hc, ← Option.some.inj h, Item.mark]
  · split at h
    · next hc => rw [hc, ← Option.some.inj h, Item.mark]
    · split at h
      · next hc => rw [hc, ← Option.some.inj h, Item.mark]
      · cases h

theorem turn_pattern (c : UInt8) (rest : Bytes) : Turn .pattern (c :: rest) := by
  by_cases hescape : c = backslash
  · subst hescape
    cases rest with
    | nil => exact .backslash fun named => by rw [pattern_escape, List.tail_nil, parens_nil]
    | cons next rest => exact .escape fun named other _ => pattern_escape named (next :: other)
  by_cases hbracket : c = openBracket
  · subst hbracket
    exact .one (by decide) (by decide) fun named other _ => pattern_bracket named other
  by_cases hparen : c = openParen
  · subst hparen
    cases hgroup : opening true rest with
    | some group => exact .group rfl rfl hgroup
    | none =>
      have hquestion : rest.head? = some question := by
        by_contra hother
        rw [opening, if_neg hother] at hgroup
        cases hgroup
      refine .passed .pattern [openParen] rest rfl (by simp only [List.length_cons]; omega) (scan_passed hgroup) ?_
        (fun other hother => ?_) fun _ hnone => nomatch hnone
      · rw [pattern_paren, hgroup]
      · rw [List.singleton_append, pattern_paren, opening, if_pos (hother.trans hquestion)]
        rfl
  · exact .one hescape hparen fun named other _ => pattern_plain named hescape hbracket hparen other

theorem turn_set (c : UInt8) (rest : Bytes) : Turn .set (c :: rest) := by
  by_cases hescape : c = backslash
  · subst hescape
    cases rest with
    | nil => exact .backslash fun named => by rw [set_escape, List.tail_nil, parens_nil]
    | cons next rest => exact .escape fun named other _ => set_escape named (next :: other)
  by_cases hclose : c = closeBracket
  · subst hclose
    exact .one (by decide) (by decide) fun named other _ => set_close named other
  by_cases hbracket : c = openBracket
  · subst hbracket
    cases hkind : rest.head?.bind Item.of with
    | none =>
      exact .one (by decide) (by decide) fun named other hother => by rw [set_bracket, hother, hkind]
    | some kind =>
      obtain ⟨mark, hmark, hof⟩ := Option.bind_eq_some_iff.mp hkind
      obtain ⟨rest, rfl⟩ := List.head?_eq_some_iff.mp hmark
      obtain rfl := of_eq_some hof
      refine .two (.item kind) (by decide) (mark_plain kind).1 (mark_plain kind).2.1 fun named other => ?_
      rw [set_bracket, List.head?_cons, Option.bind_some, hof, List.tail_cons]
  by_cases hparen : c = openParen
  · subst hparen
    exact .stands rfl nofun set_paren
  · exact .one hescape hparen fun named other _ => set_plain named hescape hclose hbracket hparen other

theorem turn_item (kind : Item) (c : UInt8) (rest : Bytes) : Turn (.item kind) (c :: rest) := by
  have hmark := mark_plain kind
  by_cases hends : c = kind.mark ∧ rest.head? = some closeBracket
  · obtain ⟨rfl, hclose⟩ := hends
    obtain ⟨rest, rfl⟩ := List.head?_eq_some_iff.mp hclose
    exact .two .set hmark (by decide) (by decide) fun named other => item_close named kind other
  by_cases hescape : c = backslash
  · subst hescape
    cases rest with
    | nil => exact .backslash fun named => item_backslash named kind
    | cons next rest =>
      by_cases hends : next = kind.mark ∧ rest.head? = some closeBracket
      · obtain ⟨rfl, hclose⟩ := hends
        obtain ⟨rest, rfl⟩ := List.head?_eq_some_iff.mp hclose
        refine .passed .set [backslash, kind.mark, closeBracket] rest rfl
            (by simp only [List.length_cons]; omega) (fun out => ?_)
          (item_escape_close true kind rest) (fun other _ => item_escape_close false kind other) fun d hd => ?_
        · rw [scan_escape, scan_copy (by decide) (by decide), copy_copy]
          rfl
        · rcases List.mem_cons.mp hd with rfl | hd
          · decide
          · obtain rfl := List.mem_singleton.mp hd
            exact hmark.2.2
      · exact .escape fun named other hother => item_escape named (by rwa [hother])
  by_cases hparen : c = openParen
  · subst hparen
    exact .stands rfl nofun fun named other => item_paren named kind other
  · exact .one hescape hparen fun named other hother => item_plain named (by rwa [hother]) hescape hparen

theorem turn (mode : Mode) (text : Bytes) : Turn mode text := by
  cases text with
  | nil => exact .done rfl
  | cons c rest =>
    cases mode with
    | pattern => exact turn_pattern c rest
    | set => exact turn_set c rest
    | item kind => exact turn_item kind c rest

end Agiru.Regex
