import Agiru.Library.Digits
import Agiru.Library.Occurs

/-! `Uri`, as it is read, and the texts made of it.

A text is a scheme, an authority behind two slashes, a path, a query and a fragment (`Form`); `parse_text` says
what is read of a form. A host and a port that were read are known by `HostPort`. -/
namespace Agiru.Uri
open Bytes
open Occurs

variable {before digits : Bytes}

namespace Ch
abbrev hash : UInt8 := 35
abbrev slash : UInt8 := 47
abbrev colon : UInt8 := 58
abbrev openBracket : UInt8 := 91
abbrev closeBracket : UInt8 := 93
end Ch
open Bytes.Ch Ch

/-! ### Reading -/

/-- `UriKind`. -/
inductive UriKind
  | relativeOrAbsolute | absolute | relative
  deriving DecidableEq

/-- `UriValue`. -/
structure UriValue where
  original : Bytes := []
  scheme : Bytes := []
  userInfo : Bytes := []
  host : Bytes := []
  port : Int := -1
  path : Bytes := []
  query : Bytes := []
  fragment : Bytes := []
  deriving DecidableEq

/-- `Lowered`. -/
def lowered (text : Bytes) : Bytes := text.map lower

/-- `std::isalpha` in the C locale. -/
def isAlpha (c : UInt8) : Bool := (65 ≤ c && c ≤ 90) || (97 ≤ c && c ≤ 122)

/-- `SchemeChar`. -/
def schemeChar (c : UInt8) (first : Bool) : Bool :=
  isAlpha c || (!first && (isDigit c || c = plus || c = minus || c = dot))

/-- `DefaultPort`. -/
def defaultPort (scheme : Bytes) : Int :=
  if scheme = ascii "http" ∨ scheme = ascii "ws" then 80
  else if scheme = ascii "https" ∨ scheme = ascii "wss" then 443
  else if scheme = ascii "ftp" then 21
  else -1

/-- The loop of `SchemeLength`. -/
def schemeRun (first : Bool) : Bytes → Nat
  | [] => 0
  | c :: rest => if schemeChar c first then schemeRun false rest + 1 else 0

/-- `SchemeLength`. -/
def schemeLength (text : Bytes) : Nat :=
  if 0 < schemeRun true text ∧ text[schemeRun true text]? = some colon then schemeRun true text else 0

/-- What `find` splits off behind a character, and what is left. -/
def taken (mark : UInt8) (text : Bytes) : Bytes × Bytes :=
  match cut [mark] text with
  | some (before, behind) => (behind, before)
  | none => ([], text)

/-- `TakeFragmentAndQuery_`: the fragment, the query and what is left. -/
def takeFragmentAndQuery (rest : Bytes) : Bytes × Bytes × Bytes :=
  let (fragment, rest) := taken hash rest
  let (query, rest) := taken question rest
  (fragment, query, rest)

/-- The loop of `ParsePort_`. -/
def portDigits (port : Int) : Bytes → Option Int
  | [] => some port
  | c :: rest =>
    if isDigit c then
      if port * 10 + (c.toNat - 48 : Nat) > 65535 then none else portDigits (port * 10 + (c.toNat - 48 : Nat)) rest
    else none

/-- The port of `ParsePort_`, from the digits behind the colon. -/
def parsePort (scheme digits : Bytes) : Option Int :=
  (portDigits 0 digits).map fun port => if digits = [] ∨ port = defaultPort scheme then -1 else port

/-- The colon before a port: what stands before it and behind it. -/
def portColon (authority : Bytes) : Option (Bytes × Bytes) :=
  if authority.head? = some openBracket then
    match cut [closeBracket] authority with
    | some (before, c :: digits) => if c = colon then some (before ++ [closeBracket], digits) else none
    | _ => none
  else cutLast colon authority

/-- A scheme that needs a host. -/
def hostNeeded (scheme : Bytes) : Bool :=
  scheme = ascii "http" || scheme = ascii "https" || scheme = ascii "ftp" || scheme = ascii "ws" ||
    scheme = ascii "wss"

/-- A character that may stand in a host. -/
def hostChar (c : UInt8) : Bool := c < 128 && !isSpace c && c ≠ slash && c ≠ question && c ≠ hash

/-- The host of `ParseAuthority_`. -/
def parseHost (scheme authority : Bytes) : Option Bytes :=
  if hostNeeded scheme ∧ lowered authority = [] then none
  else if (lowered authority).all hostChar then some (lowered authority) else none

/-- The host and the port of `ParseAuthority_`. -/
def parseHostPort (scheme authority : Bytes) : Option (Bytes × Int) :=
  match portColon authority with
  | some (before, digits) => (parsePort scheme digits).bind fun port => (parseHost scheme before).map (·, port)
  | none => (parseHost scheme authority).map (·, -1)

/-- The user information, the host and the port of `ParseAuthority_`. -/
def parseAuthority (scheme authority : Bytes) : Option (Bytes × Bytes × Int) :=
  match cutLast commercialAt authority with
  | some (userInfo, authority) => (parseHostPort scheme authority).map (userInfo, ·)
  | none => (parseHostPort scheme authority).map ([], ·)

/-- `Parse_`. -/
def parse (uriString : Bytes) (uriKind : UriKind) : Option UriValue :=
  let absolute := 0 < schemeLength uriString
  if uriKind = .absolute ∧ ¬ absolute then none
  else if uriKind = .relative ∧ absolute then none
  else if ¬ absolute ∧ uriString = [] then none
  else
    let scheme := if absolute then lowered (uriString.take (schemeLength uriString)) else []
    let rest := if absolute then uriString.drop (schemeLength uriString + 1) else uriString
    let (fragment, query, rest) := takeFragmentAndQuery rest
    let made : UriValue := { original := uriString, scheme := scheme, query := query, fragment := fragment }
    if absolute ∧ [slash, slash].isPrefixOf rest then
      (parseAuthority scheme ((rest.drop 2).takeWhile (· ≠ slash))).map fun (userInfo, host, port) =>
        { made with
          userInfo := userInfo, host := host, port := port, path := (rest.drop 2).dropWhile (· ≠ slash) }
    else some { made with path := rest }

/-! ### Writing -/

namespace UriValue

/-- `IsAbsoluteUri`. -/
def isAbsoluteUri (uri : UriValue) : Bool := uri.scheme ≠ []

/-- `IsDefaultPort`. -/
def isDefaultPort (uri : UriValue) : Bool := uri.port < 0

/-- `Port`. -/
def portNumber (uri : UriValue) : Int := if 0 ≤ uri.port then uri.port else defaultPort uri.scheme

/-- `AbsolutePath`. -/
def absolutePath (uri : UriValue) : Bytes := if uri.path = [] ∧ uri.host ≠ [] then [slash] else uri.path

/-- `Query`. -/
def queryText (uri : UriValue) : Bytes := if uri.query = [] then [] else question :: uri.query

/-- `Fragment`. -/
def fragmentText (uri : UriValue) : Bytes := if uri.fragment = [] then [] else hash :: uri.fragment

/-- `Authority`. -/
def authority (uri : UriValue) : Bytes :=
  if uri.port < 0 then uri.host else uri.host ++ colon :: natText uri.port.toNat

/-- `AbsoluteUri`. -/
def absoluteUri (uri : UriValue) : Bytes :=
  if uri.scheme = [] then uri.original
  else
    uri.scheme ++ [colon] ++
      (if uri.host ≠ [] ∨ (cut [slash, slash] uri.original).map (·.1.length) =
          some (uri.scheme.length + 1) then
        [slash, slash] ++ (if uri.userInfo = [] then [] else uri.userInfo ++ [commercialAt]) ++ uri.authority
      else []) ++ uri.absolutePath ++ uri.queryText ++ uri.fragmentText

end UriValue

/-- `UriParts`. -/
structure UriParts where
  scheme : Bytes := ascii "http"
  host : Bytes := ascii "localhost"
  port : Int := -1
  path : Bytes := [slash]
  query : Bytes := []
  fragment : Bytes := []
  deriving DecidableEq

namespace UriParts

/-- `Scheme`, written. -/
def setScheme (parts : UriParts) (value : Bytes) : UriParts :=
  { parts with scheme := (lowered value).takeWhile (· ≠ colon) }

/-- `Path`, written. -/
def setPath (parts : UriParts) (value : Bytes) : UriParts :=
  let path := if value = [] then [slash] else value
  { parts with path := if path.head? = some slash then path else slash :: path }

/-- `Query`, written. -/
def setQuery (parts : UriParts) (value : Bytes) : UriParts :=
  { parts with query := if value.head? = some question then value.tail else value }

/-- `Fragment`, written. -/
def setFragment (parts : UriParts) (value : Bytes) : UriParts :=
  { parts with fragment := if value.head? = some hash then value.tail else value }

/-- `UriBuilder(uri)`, of a URI. -/
def ofUri (uri : UriValue) : UriParts :=
  let made : UriParts := {}
  let made := made.setScheme uri.scheme
  let made := { made with host := uri.host }
  let made := { made with port := if uri.isDefaultPort then -1 else uri.portNumber }
  let made := made.setPath uri.absolutePath
  let made := made.setQuery uri.queryText
  made.setFragment uri.fragmentText

/-- `ToString`. -/
def toString (parts : UriParts) : Bytes :=
  parts.scheme ++ [colon, slash, slash] ++ parts.host ++
    (if 0 ≤ parts.port ∧ parts.port ≠ defaultPort parts.scheme then colon :: natText parts.port.toNat else []) ++
    (if parts.path = [] then [slash] else parts.path) ++
    (if parts.query = [] then [] else question :: parts.query) ++
    (if parts.fragment = [] then [] else hash :: parts.fragment)

end UriParts

/-! ### The form of a text -/

/-- The scheme, the authority, the path, the query with its question mark and the fragment with its hash of an
absolute URI, each without the characters that end it. -/
structure Form where
  scheme : Bytes
  authority : Option Bytes
  path : Bytes
  query : Bytes
  fragment : Bytes
  hscheme : scheme ≠ [] ∧ schemeRun true scheme = scheme.length
  hauthority : ∀ a ∈ authority, slash ∉ a ∧ question ∉ a ∧ hash ∉ a
  hpath : question ∉ path ∧ hash ∉ path
  hroot : if authority.isSome then path = [] ∨ path.head? = some slash else ¬ [slash, slash] <+: path
  hquery : (query = [] ∨ query.head? = some question) ∧ hash ∉ query
  hfragment : fragment = [] ∨ fragment.head? = some hash

/-- The authority behind its slashes. -/
def Form.front (form : Form) : Bytes := form.authority.elim [] fun authority => slash :: slash :: authority

def Form.text (form : Form) : Bytes :=
  form.scheme ++ colon :: (form.front ++ (form.path ++ (form.query ++ form.fragment)))

/-- What is read of a text of this form. -/
def Form.read (form : Form) : Option UriValue :=
  let scheme := lowered form.scheme
  let made : UriValue :=
    { original := form.text, scheme := scheme, path := form.path, query := form.query.tail,
      fragment := form.fragment.tail }
  match form.authority with
  | none => some made
  | some authority => (parseAuthority scheme authority).map fun (userInfo, host, port) =>
      { made with userInfo := userInfo, host := host, port := port }

theorem schemeRun_append (first : Bool) {scheme : Bytes} (h : schemeRun first scheme = scheme.length)
    {rest : Bytes}
    (hrest : schemeRun false rest = 0) (hne : scheme ≠ [] ∨ first = false) :
    schemeRun first (scheme ++ rest) = scheme.length := by
  induction scheme generalizing first with
  | nil =>
    obtain rfl := hne.resolve_left fun hnil => hnil rfl
    exact hrest
  | cons c scheme ih =>
    rw [schemeRun] at h
    split at h
    · next hc =>
      rw [List.cons_append, schemeRun, if_pos hc, ih false (Nat.succ.inj h) (.inr rfl), List.length_cons]
    · cases h

theorem schemeRun_le (first : Bool) (text : Bytes) : schemeRun first text ≤ text.length := by
  induction text generalizing first with
  | nil => exact Nat.le_refl _
  | cons c rest ih =>
    rw [schemeRun]
    split
    · exact Nat.succ_le_succ (ih false)
    · exact Nat.zero_le _

theorem schemeRun_take (first : Bool) (text : Bytes) :
    schemeRun first (text.take (schemeRun first text)) = schemeRun first text := by
  induction text generalizing first with
  | nil => rfl
  | cons c rest ih =>
    rw [schemeRun]
    split
    · next hc => rw [List.take_succ_cons, schemeRun, if_pos hc, ih]
    · rfl

theorem schemeRun_all (first : Bool) {scheme : Bytes} (h : schemeRun first scheme = scheme.length) :
    ∀ c ∈ scheme, schemeChar c false = true := by
  induction scheme generalizing first with
  | nil => exact fun c hc => (nomatch hc)
  | cons c scheme ih =>
    rw [schemeRun] at h
    split at h
    · next hc =>
      refine List.forall_mem_cons.mpr ⟨?_, ih false (Nat.succ.inj h)⟩
      cases first with
      | false => exact hc
      | true =>
        rw [schemeChar, Bool.not_true, Bool.false_and, Bool.or_false] at hc
        rw [schemeChar, hc, Bool.true_or]
    · cases h

theorem schemeLength_scheme {scheme : Bytes} (hne : scheme ≠ []) (h : schemeRun true scheme = scheme.length)
    (rest : Bytes) : schemeLength (scheme ++ colon :: rest) = scheme.length := by
  have hrun : schemeRun true (scheme ++ colon :: rest) = scheme.length := schemeRun_append true h rfl (.inl hne)
  have hcolon : (scheme ++ colon :: rest)[scheme.length]? = some colon := by
    rw [List.getElem?_append_right (Nat.le_refl _), Nat.sub_self]
    rfl
  rw [schemeLength, hrun, if_pos ⟨List.length_pos_iff.mpr hne, hcolon⟩]

/-- A text with a scheme. -/
theorem scheme_of_length {text : Bytes} (h : 0 < schemeLength text) :
    ∃ scheme rest, text = scheme ++ colon :: rest ∧ scheme ≠ [] ∧ schemeRun true scheme = scheme.length := by
  unfold schemeLength at h
  split at h
  · next hcolon =>
    obtain ⟨hlt, hat⟩ := List.getElem?_eq_some_iff.mp hcolon.2
    have hlength : (text.take (schemeRun true text)).length = schemeRun true text := by
      rw [List.length_take, Nat.min_eq_left (schemeRun_le true text)]
    refine ⟨text.take (schemeRun true text), text.drop (schemeRun true text + 1), ?_, ?_, ?_⟩
    · rw [← hat, ← List.drop_eq_getElem_cons hlt, List.take_append_drop]
    · exact List.length_pos_iff.mp (hlength.symm ▸ hcolon.1)
    · rw [schemeRun_take, hlength]
  · exact absurd h (Nat.lt_irrefl 0)

theorem taken_append {mark : UInt8} {behind : Bytes} (hfree : mark ∉ before)
    (hbehind : behind = [] ∨ behind.head? = some mark) : taken mark (before ++ behind) =
        (behind.tail, before) := by
  rcases hbehind with rfl | hhead
  · rw [taken, List.append_nil, cut_one_none.mpr hfree]
    rfl
  · obtain ⟨rest, rfl⟩ := List.head?_eq_some_iff.mp hhead
    rw [taken, cut_one.mpr ⟨rfl, hfree⟩]
    rfl

theorem takeWhile_ne_free (mark : UInt8) (text : Bytes) : mark ∉ text.takeWhile (· ≠ mark) := by
  intro hmem
  have hne := List.mem_takeWhile_imp hmem
  rw [decide_eq_true_iff] at hne
  exact hne rfl

theorem dropWhile_ne_head (mark : UInt8) (text : Bytes) :
    text.dropWhile (· ≠ mark) = [] ∨ (text.dropWhile (· ≠ mark)).head? = some mark := by
  cases hdrop : text.dropWhile (· ≠ mark) with
  | nil => exact .inl rfl
  | cons c rest =>
    have := List.head?_dropWhile_not (· ≠ mark) text
    rw [hdrop, List.head?_cons] at this
    simp only [ne_eq, decide_not, Bool.not_eq_false', decide_eq_true_eq] at this
    exact .inr (congrArg some this)

/-- A text with a scheme is of a form. -/
theorem exists_form {text : Bytes} (h : 0 < schemeLength text) : ∃ form : Form, form.text = text := by
  obtain ⟨scheme, rest, rfl, hscheme⟩ := scheme_of_length h
  obtain ⟨front, fragment, rfl, hhash, hfragment⟩ : ∃ front fragment, rest = front ++ fragment ∧ hash ∉ front ∧
      (fragment = [] ∨ fragment.head? = some hash) :=
    ⟨_, _, List.takeWhile_append_dropWhile.symm, takeWhile_ne_free hash rest, dropWhile_ne_head hash rest⟩
  obtain ⟨hier, query, rfl, hquestion, hquery⟩ : ∃ hier query, front = hier ++ query ∧ question ∉ hier ∧
      (query = [] ∨ query.head? = some question) :=
    ⟨_, _, List.takeWhile_append_dropWhile.symm, takeWhile_ne_free question front, dropWhile_ne_head question front⟩
  rw [List.mem_append, not_or] at hhash
  by_cases hslashes : [slash, slash] <+: hier
  · obtain ⟨behind, rfl⟩ := hslashes
    obtain ⟨authority, path, rfl, hslash, hpath⟩ : ∃ authority path, behind = authority ++ path ∧
        slash ∉ authority ∧
        (path = [] ∨ path.head? = some slash) :=
      ⟨_, _, List.takeWhile_append_dropWhile.symm, takeWhile_ne_free slash behind, dropWhile_ne_head slash behind⟩
    simp only [List.cons_append, List.nil_append, List.mem_cons, List.mem_append, not_or] at hquestion hhash
    refine ⟨⟨scheme, some authority, path, query, fragment, hscheme, fun a ha => ?_, ?_, hpath, ⟨hquery, hhash.2⟩,
      hfragment⟩, ?_⟩
    · obtain rfl := Option.some.inj ha
      exact ⟨hslash, hquestion.2.2.1, hhash.1.2.2.1⟩
    · exact ⟨hquestion.2.2.2, hhash.1.2.2.2⟩
    · simp only [Form.text, Form.front, Option.elim_some, List.cons_append, List.nil_append, List.append_assoc]
  · refine ⟨⟨scheme, none, hier, query, fragment, hscheme, fun a ha => (nomatch ha), ⟨hquestion, hhash.1⟩, hslashes,
      ⟨hquery, hhash.2⟩, hfragment⟩, ?_⟩
    simp only [Form.text, Form.front, Option.elim_none, List.nil_append, List.append_assoc]

/-! ### Reading a form -/

theorem span_append {p : UInt8 → Bool} {behind : Bytes} (hbefore : ∀ c ∈ before, p c = true)
    (hbehind : ∀ c, behind.head? = some c → p c = false) :
    (before ++ behind).takeWhile p = before ∧ (before ++ behind).dropWhile p = behind := by
  rw [List.takeWhile_append_of_pos hbefore, List.dropWhile_append_of_pos hbefore]
  cases behind with
  | nil => exact ⟨List.append_nil _, rfl⟩
  | cons c rest =>
    have hc := hbehind c rfl
    rw [List.takeWhile_cons_of_neg (by rw [hc]; exact Bool.false_ne_true),
      List.dropWhile_cons_of_neg (by rw [hc]; exact Bool.false_ne_true)]
    exact ⟨List.append_nil _, rfl⟩

section
variable (form : Form)

theorem form_length : schemeLength form.text = form.scheme.length :=
  schemeLength_scheme form.hscheme.1 form.hscheme.2 _

theorem form_scheme : form.text.take (schemeLength form.text) = form.scheme := by
  rw [form_length, Form.text, List.take_left]

theorem form_rest : form.text.drop (schemeLength form.text + 1) =
    form.front ++ (form.path ++ (form.query ++ form.fragment)) := by
  rw [form_length, Form.text, ← List.drop_drop, List.drop_left, List.drop_one, List.tail_cons]

theorem front_free {mark : UInt8} (hmark : mark = question ∨ mark = hash) : mark ∉ form.front ++ form.path := by
  have hpath : mark ∉ form.path := hmark.elim (fun h => h ▸ form.hpath.1) fun h => h ▸ form.hpath.2
  rw [List.mem_append, not_or]
  refine ⟨?_, hpath⟩
  unfold Form.front
  cases hauthority : form.authority with
  | none => exact List.not_mem_nil
  | some authority =>
    obtain ⟨-, hquestion, hhash⟩ := form.hauthority authority hauthority
    have hfree : mark ∉ authority := hmark.elim (fun h => h ▸ hquestion) fun h => h ▸ hhash
    have hne : mark ≠ slash := by rcases hmark with rfl | rfl <;> decide
    exact List.not_mem_cons_of_ne_of_not_mem hne (List.not_mem_cons_of_ne_of_not_mem hne hfree)

theorem form_taken : takeFragmentAndQuery (form.front ++ (form.path ++ (form.query ++ form.fragment))) =
    (form.fragment.tail, form.query.tail, form.front ++ form.path) := by
  have hhash : hash ∉ form.front ++ form.path ++ form.query := by
    rw [List.mem_append, not_or]
    exact ⟨front_free form (.inr rfl), form.hquery.2⟩
  rw [takeFragmentAndQuery, ← List.append_assoc, ← List.append_assoc, taken_append hhash form.hfragment]
  simp only [taken_append (front_free form (.inl rfl)) form.hquery.1]

theorem slashes_iff : [slash, slash] <+: form.front ++ form.path ↔ form.authority.isSome = true := by
  have hroot := form.hroot
  unfold Form.front
  cases hauthority : form.authority with
  | none =>
    rw [hauthority] at hroot
    exact ⟨fun hslashes => absurd hslashes hroot, fun hsome => nomatch hsome⟩
  | some authority => exact ⟨fun _ => rfl, fun _ => ⟨authority ++ form.path, rfl⟩⟩

/-- A text is read by its form. -/
theorem parse_text {kind : UriKind} (hkind : kind ≠ .relative) : parse form.text kind = form.read := by
  have habsolute : 0 < schemeLength form.text := by
    rw [form_length]
    exact List.length_pos_iff.mpr form.hscheme.1
  unfold parse Form.read
  simp only [habsolute, not_true, and_false, if_false, false_and, hkind, if_true, true_and, form_scheme, form_rest,
    form_taken, List.isPrefixOf_iff_prefix, slashes_iff]
  have hroot := form.hroot
  unfold Form.front
  cases hauthority : form.authority with
  | none => rfl
  | some authority =>
    rw [hauthority] at hroot
    have hslash := (form.hauthority authority hauthority).1
    obtain ⟨htake, hdrop⟩ : (authority ++ form.path).takeWhile (· ≠ slash) = authority ∧
        (authority ++ form.path).dropWhile (· ≠ slash) = form.path := by
      refine span_append (fun c hc => decide_eq_true fun heq => hslash (heq ▸ hc)) fun c hc => ?_
      rcases hroot with hnil | hhead
      · rw [hnil] at hc
        cases hc
      · rw [Option.some.inj (hc.symm.trans hhead)]
        rfl
    simp only [Option.isSome_some, if_true, Option.elim_some, List.cons_append, List.drop_succ_cons, List.drop_zero,
      htake, hdrop]

end

theorem absolute_of_parse {text : Bytes} {kind : UriKind} {uri : UriValue} (h : parse text kind = some uri)
    (habsolute : uri.isAbsoluteUri = true) : kind ≠ .relative ∧ 0 < schemeLength text := by
  have hlength : 0 < schemeLength text := by
    by_contra hnone
    unfold parse at h
    simp only [hnone, if_false, false_and, and_false, not_false_iff, true_and, and_true] at h
    split at h
    · cases h
    split at h
    · cases h
    obtain rfl := Option.some.inj h
    cases habsolute
  refine ⟨fun hkind => ?_, hlength⟩
  subst hkind
  unfold parse at h
  simp only [hlength, not_true, and_false, if_false, and_self, if_true] at h
  cases h

/-! ### A host and a port -/

theorem lowered_lowered (text : Bytes) : lowered (lowered text) = lowered text := by
  rw [lowered, lowered, List.map_map]
  exact List.map_congr_left fun c _ => lower_lower c

section
variable {c : UInt8} (hlower : lower c = c) (hsmall : c < 97)
include hlower hsmall

theorem mem_lowered (text : Bytes) : c ∈ lowered text ↔ c ∈ text := by
  rw [lowered, List.mem_map]
  refine ⟨fun ⟨d, hd, heq⟩ => ?_, fun hc => ⟨c, hc, hlower⟩⟩
  rwa [← (lower_eq_iff hlower hsmall).mp heq]

theorem head_lowered (text : Bytes) : (lowered text).head? = some c ↔ text.head? = some c := by
  cases text with
  | nil => exact Iff.rfl
  | cons d rest =>
    rw [lowered, List.map_cons, List.head?_cons, List.head?_cons, Option.some_inj, Option.some_inj]
    exact lower_eq_iff hlower hsmall

end

theorem parseHost_some {scheme authority host : Bytes} (h : parseHost scheme authority = some host) :
    host = lowered authority ∧ parseHost scheme host = some host ∧ ∀ c ∈ host, hostChar c = true := by
  unfold parseHost at h
  split at h
  · cases h
  · next hneeded =>
    split at h
    · next hall =>
      obtain rfl := Option.some.inj h
      refine ⟨rfl, ?_, List.all_eq_true.mp hall⟩
      rw [parseHost, lowered_lowered, if_neg hneeded, if_pos hall]
    · cases h

theorem hostChar_free {host : Bytes} (h : ∀ c ∈ host, hostChar c = true) :
    slash ∉ host ∧ question ∉ host ∧ hash ∉ host :=
  ⟨fun hmem => absurd (h _ hmem) (by decide), fun hmem => absurd (h _ hmem) (by decide),
    fun hmem => absurd (h _ hmem) (by decide)⟩

/-- The loop reads the number, if it is not too large. -/
theorem portDigits_iff {m : Nat} (hm : m ≤ 65535) {port : Int} :
    portDigits m digits = some port ↔ Digits digits ∧ m * 10 ^ digits.length + digitsValue digits ≤ 65535 ∧
      port = (m * 10 ^ digits.length + digitsValue digits : Nat) := by
  rw [← foldl_digits]
  induction digits generalizing m with
  | nil =>
    rw [portDigits, Option.some_inj, List.foldl_nil]
    exact ⟨fun h => ⟨fun c hc => (nomatch hc), hm, h.symm⟩, fun h => h.2.2.symm⟩
  | cons c rest ih =>
    rw [portDigits, List.foldl_cons, Digits, List.forall_mem_cons]
    by_cases hc : isDigit c = true
    · rw [if_pos hc]
      have hcast : (m : Int) * 10 + (c.toNat - 48 : Nat) = (m * 10 + (c.toNat - 48) : Nat) := by
        rw [Nat.cast_add, Nat.cast_mul]
        rfl
      rw [hcast]
      by_cases hlarge : m * 10 + (c.toNat - 48) ≤ 65535
      · rw [if_neg (by omega), ih hlarge]
        exact and_congr_left fun _ => (and_iff_right hc).symm
      · rw [if_pos (by omega)]
        refine ⟨fun hnone => (nomatch hnone), fun ⟨_, hle, _⟩ => absurd (Nat.le_trans ?_ hle) hlarge⟩
        rw [foldl_digits]
        exact Nat.le_add_right_of_le (Nat.le_mul_of_pos_right _ (Nat.pow_pos (by decide)))
    · rw [if_neg hc]
      exact ⟨fun hnone => (nomatch hnone), fun h => absurd h.1.1 hc⟩

/-- The port is kept if there is one and it is not the scheme's own. -/
theorem parsePort_some {scheme : Bytes} {port : Int} (h : parsePort scheme digits = some port) :
    Digits digits ∧ (digits = [] ∨ (digitsValue digits : Int) = defaultPort scheme) ∧ port = -1 ∨
      Digits digits ∧ ¬ (digits = [] ∨ (digitsValue digits : Int) = defaultPort scheme) ∧
        port = digitsValue digits ∧ digitsValue digits ≤ 65535 := by
  obtain ⟨value, hvalue, rfl⟩ := Option.map_eq_some_iff.mp h
  have hzero := (portDigits_iff (Nat.zero_le _) (m := 0)).mp hvalue
  rw [Nat.zero_mul, Nat.zero_add] at hzero
  obtain ⟨hdigits, hle, rfl⟩ := hzero
  split
  · next hown => exact .inl ⟨hdigits, hown, rfl⟩
  · next hown => exact .inr ⟨hdigits, hown, rfl, hle⟩

theorem parsePort_natText {scheme : Bytes} {n : Nat} (hn : n ≤ 65535) (hown : (n : Int) ≠ defaultPort scheme) :
    parsePort scheme (natText n) = some (n : Int) := by
  have hread : portDigits (0 : Nat) (natText n) = some (n : Int) := by
    rw [portDigits_iff (Nat.zero_le _), Nat.zero_mul, Nat.zero_add, digitsValue_natText]
    exact ⟨fun c hc => isDigit_natText hc, hn, rfl⟩
  rw [parsePort, show portDigits 0 (natText n) = some (n : Int) from hread, Option.map_some,
    if_neg (not_or.mpr ⟨natText_ne_nil n, hown⟩)]

theorem colon_digits (h : Digits digits) : colon ∉ digits := fun hmem =>
  absurd (h colon hmem) (by decide)

theorem cut_lowered {c : UInt8} (hlower : lower c = c) (hsmall : c < 97) (text : Bytes) :
    cut [c] (lowered text) = (cut [c] text).map (Prod.map lowered lowered) := by
  cases hcut : cut [c] text with
  | none =>
    rw [cut_one_none] at hcut
    exact cut_one_none.mpr (mt (mem_lowered hlower hsmall text).mp hcut)
  | some found =>
    obtain ⟨htext, hfree⟩ := cut_one.mp hcut
    refine cut_one.mpr ⟨?_, mt (mem_lowered hlower hsmall found.1).mp hfree⟩
    rw [htext, lowered, List.map_append, List.map_cons, hlower]
    rfl

theorem cutLast_lowered {c : UInt8} (hlower : lower c = c) (hsmall : c < 97) (text : Bytes) :
    cutLast c (lowered text) = (cutLast c text).map (Prod.map lowered lowered) := by
  cases hcut : cutLast c text with
  | none =>
    rw [cutLast_none] at hcut
    exact cutLast_none.mpr (mt (mem_lowered hlower hsmall text).mp hcut)
  | some found =>
    obtain ⟨htext, hfree⟩ := cutLast_some.mp hcut
    refine cutLast_some.mpr ⟨?_, mt (mem_lowered hlower hsmall found.2).mp hfree⟩
    rw [htext, lowered, List.map_append, List.map_cons, hlower]
    rfl

theorem portColon_plain {authority : Bytes} (h : authority.head? ≠ some openBracket) :
    portColon authority = cutLast colon authority := if_neg h

theorem portColon_bracket (hhead : before.head? = some openBracket) (hfree : closeBracket ∉ before) (rest : Bytes) :
    portColon (before ++ closeBracket :: rest) =
      if rest.head? = some colon then some (before ++ [closeBracket], rest.tail) else none := by
  have hopen : (before ++ closeBracket :: rest).head? = some openBracket := by rw [List.head?_append, hhead]; rfl
  rw [portColon, if_pos hopen, cut_one.mpr ⟨rfl, hfree⟩]
  cases rest with
  | nil => rfl
  | cons c digits => simp only [List.head?_cons, Option.some_inj, List.tail_cons]

/-- The host in brackets, and what stands behind them. -/
theorem bracket_split {authority behind : Bytes} (hhead : authority.head? = some openBracket)
    (hcut : cut [closeBracket] authority = some (before, behind)) :
    authority = before ++ closeBracket :: behind ∧ before.head? = some openBracket ∧ closeBracket ∉ before := by
  obtain ⟨rfl, hfree⟩ := cut_one.mp hcut
  refine ⟨rfl, ?_, hfree⟩
  cases before with
  | nil =>
    rw [List.nil_append, List.head?_cons, Option.some_inj] at hhead
    exact absurd hhead (by decide)
  | cons c before => exact hhead

theorem portColon_lowered (authority : Bytes) :
    portColon (lowered authority) = (portColon authority).map (Prod.map lowered lowered) := by
  by_cases hhead : authority.head? = some openBracket
  · have hlowered : (lowered authority).head? = some openBracket :=
      (head_lowered (by decide) (by decide) _).mpr hhead
    cases hcut : cut [closeBracket] authority with
    | none =>
      rw [portColon, if_pos hlowered, cut_lowered (by decide) (by decide), hcut, portColon, if_pos hhead, hcut]
      rfl
    | some found =>
      obtain ⟨htext, hopen, hfree⟩ := bracket_split hhead hcut
      have hsame : lowered authority = lowered found.1 ++ closeBracket :: lowered found.2 := by
        rw [htext, lowered, List.map_append]
        rfl
      have hcolon := head_lowered (c := colon) (by decide) (by decide) found.2
      rw [hsame, portColon_bracket ((head_lowered (by decide) (by decide) _).mpr hopen)
        (mt (mem_lowered (by decide) (by decide) _).mp hfree), htext, portColon_bracket hopen hfree]
      by_cases hport : found.2.head? = some colon
      · rw [if_pos hport, if_pos (hcolon.mpr hport), Option.map_some, Prod.map, lowered, lowered, lowered, lowered,
          List.map_append, List.map_tail]
        rfl
      · rw [if_neg hport, if_neg (mt hcolon.mp hport), Option.map_none]
  · rw [portColon_plain hhead, portColon_plain (mt (head_lowered (by decide) (by decide) _).mp hhead),
      cutLast_lowered (by decide) (by decide)]

/-- A host with colons stands in brackets, or has a port behind it that is not the scheme's own. -/
def PortShown (scheme hostPort : Bytes) : Prop :=
  hostPort.head? = some openBracket ∨ hostPort.count colon ≤ 1 ∨
    ∃ before digits, cutLast colon hostPort = some (before, digits) ∧ digits ≠ [] ∧
      (digitsValue digits : Int) ≠ defaultPort scheme

/-- What is known of a host and a port that were read. -/
structure HostPort (scheme hostPort host : Bytes) (port : Int) : Prop where
  hhost : parseHost scheme host = some host
  hchars : ∀ c ∈ host, hostChar c = true
  hat : commercialAt ∉ hostPort → commercialAt ∉ host
  hport : port = -1 ∨ 0 ≤ port ∧ port.toNat ≤ 65535 ∧ port ≠ defaultPort scheme ∧
    ∀ digits, colon ∉ digits → portColon (host ++ colon :: digits) = some (host, digits)
  halone : host.head? = some openBracket ∨ colon ∉ host → portColon host = none
  hshown : PortShown scheme hostPort ↔ host.head? = some openBracket ∨ colon ∉ host ∨ 0 ≤ port
  hempty : host = [] ↔ hostPort = [] ∨ ∃ digits, cutLast colon hostPort = some ([], digits)

section
variable {scheme hostPort host : Bytes} {port : Int}

/-- A host that has no port behind it. -/
theorem HostPort.alone (hhost : parseHost scheme hostPort = some host) (hcolon : portColon hostPort = none) :
    HostPort scheme hostPort host (-1) := by
  obtain ⟨rfl, hagain, hchars⟩ := parseHost_some hhost
  have hfree : hostPort.head? ≠ some openBracket → colon ∉ hostPort := fun hhead => by
    rwa [portColon_plain hhead, cutLast_none] at hcolon
  refine ⟨hagain, hchars, mt (mem_lowered (by decide) (by decide) _).mp, .inl rfl, fun _ => ?_, ?_, ?_⟩
  · rw [portColon_lowered, hcolon, Option.map_none]
  · rw [head_lowered (by decide) (by decide), mem_lowered (by decide) (by decide)]
    by_cases hhead : hostPort.head? = some openBracket
    · exact iff_of_true (.inl hhead) (.inl hhead)
    · have hcount : hostPort.count colon ≤ 1 := by
        rw [List.count_eq_zero.mpr (hfree hhead)]
        exact Nat.zero_le _
      exact iff_of_true (.inr (.inl hcount)) (.inr (.inl (hfree hhead)))
  · rw [lowered, List.map_eq_nil_iff]
    refine ⟨.inl, fun hempty => hempty.resolve_right fun ⟨digits, hcut⟩ => ?_⟩
    obtain ⟨htext, -⟩ := cutLast_some.mp hcut
    rw [List.nil_append] at htext
    refine hfree ?_ (htext ▸ List.mem_cons_self)
    rw [htext, List.head?_cons, ne_eq, Option.some_inj]
    decide

/-- A host in brackets with a port behind it. -/
theorem HostPort.bracketed (hhead : hostPort.head? = some openBracket)
    (hcolon : portColon hostPort = some (before, digits)) (hhost : parseHost scheme before = some host)
    (hport : parsePort scheme digits = some port) : HostPort scheme hostPort host port := by
  obtain ⟨rfl, hagain, hchars⟩ := parseHost_some hhost
  obtain ⟨inner, htext, hbefore, hopen, hfree⟩ : ∃ inner, hostPort = inner ++ closeBracket :: colon :: digits ∧
      before = inner ++ [closeBracket] ∧ inner.head? = some openBracket ∧ closeBracket ∉ inner := by
    cases hcut : cut [closeBracket] hostPort with
    | none =>
      rw [portColon, if_pos hhead, hcut] at hcolon
      cases hcolon
    | some found =>
      obtain ⟨htext, hopen, hfree⟩ := bracket_split hhead hcut
      rw [htext, portColon_bracket hopen hfree] at hcolon
      split at hcolon
      · next hnext =>
        obtain ⟨rfl, rfl⟩ := Prod.mk.inj (Option.some.inj hcolon)
        obtain ⟨digits, hdigits⟩ := List.head?_eq_some_iff.mp hnext
        exact ⟨found.1, by rw [htext, hdigits, List.tail_cons], rfl, hopen, hfree⟩
      · cases hcolon
  have hhost : lowered before = lowered inner ++ [closeBracket] := by
    rw [hbefore, lowered, List.map_append]
    rfl
  have hopen' : (lowered inner).head? = some openBracket := (head_lowered (by decide) (by decide) _).mpr hopen
  have hfree' : closeBracket ∉ lowered inner := mt (mem_lowered (by decide) (by decide) _).mp hfree
  have hhead' : (lowered before).head? = some openBracket := by rw [hhost, List.head?_append, hopen']; rfl
  refine ⟨hagain, hchars, fun hat hmem => hat ?_, ?_, fun _ => ?_, iff_of_true (.inl hhead) (.inl hhead'), ?_⟩
  · rw [mem_lowered (by decide) (by decide), hbefore] at hmem
    rw [htext]
    simp only [List.mem_append, List.mem_cons, List.not_mem_nil, or_false] at hmem ⊢
    exact hmem.imp_right .inl
  · rcases parsePort_some hport with ⟨-, -, rfl⟩ | ⟨-, hown, rfl, hle⟩
    · exact .inl rfl
    · refine .inr ⟨Int.natCast_nonneg _, hle, fun heq => hown (.inr heq), fun more _ => ?_⟩
      rw [hhost, List.append_assoc, List.singleton_append, portColon_bracket hopen' hfree',
        if_pos List.head?_cons, List.tail_cons]
  · rw [hhost, portColon_bracket hopen' hfree', if_neg (by decide)]
  · refine iff_of_false (fun hnil => ?_) fun hempty => ?_
    · rw [hnil] at hhead'
      cases hhead'
    · rcases hempty with hnil | ⟨digits, hcut⟩
      · rw [hnil] at hhead
        cases hhead
      · rw [(cutLast_some.mp hcut).1, List.nil_append, List.head?_cons, Option.some_inj] at hhead
        exact absurd hhead (by decide)

/-- Another host with a port behind it. -/
theorem HostPort.plain (hhead : hostPort.head? ≠ some openBracket)
    (hcolon : portColon hostPort = some (before, digits)) (hhost : parseHost scheme before = some host)
    (hport : parsePort scheme digits = some port) : HostPort scheme hostPort host port := by
  obtain ⟨rfl, hagain, hchars⟩ := parseHost_some hhost
  rw [portColon_plain hhead] at hcolon
  obtain ⟨htext, hdigits⟩ := cutLast_some.mp hcolon
  have hbefore : (lowered before).head? ≠ some openBracket := fun hopen => by
    rw [head_lowered (by decide) (by decide)] at hopen
    rw [htext, List.head?_append, hopen] at hhead
    exact hhead rfl
  have hcolons : colon ∈ lowered before ↔ colon ∈ before := mem_lowered (by decide) (by decide) _
  refine ⟨hagain, hchars, fun hat hmem => hat ?_, ?_, fun halone => ?_, ?_, ?_⟩
  · rw [mem_lowered (by decide) (by decide)] at hmem
    exact htext ▸ List.mem_append_left _ hmem
  · rcases parsePort_some hport with ⟨-, -, rfl⟩ | ⟨-, hown, rfl, hle⟩
    · exact .inl rfl
    · refine .inr ⟨Int.natCast_nonneg _, hle, fun heq => hown (.inr heq), fun more hmore => ?_⟩
      have hplain : (lowered before ++ colon :: more).head? ≠ some openBracket := by
        cases hlowered : lowered before with
        | nil =>
          rw [List.nil_append, List.head?_cons, ne_eq, Option.some_inj]
          decide
        | cons c rest => rwa [hlowered] at hbefore
      rw [portColon_plain hplain]
      exact cutLast_some.mpr ⟨rfl, hmore⟩
  · rw [portColon_plain hbefore, cutLast_none]
    exact halone.resolve_left hbefore
  · have hcount : hostPort.count colon = before.count colon + 1 := by
      rw [htext, List.count_append, List.count_cons_self, List.count_eq_zero.mpr hdigits]
    have hshown : (∃ front back, cutLast colon hostPort = some (front, back) ∧ back ≠ [] ∧
        (digitsValue back : Int) ≠ defaultPort scheme) ↔ 0 ≤ port := by
      refine ⟨fun ⟨front, back, hcut, hne, hown⟩ => ?_, fun hport0 => ⟨before, digits, hcolon, ?_⟩⟩
      · obtain ⟨-, rfl⟩ := Prod.mk.inj (Option.some.inj (hcut.symm.trans hcolon))
        rcases parsePort_some hport with ⟨-, hdefault, -⟩ | ⟨-, -, rfl, -⟩
        · exact absurd hdefault (not_or.mpr ⟨hne, hown⟩)
        · exact Int.natCast_nonneg _
      · rcases parsePort_some hport with ⟨-, -, rfl⟩ | ⟨-, hown, -, -⟩
        · exact absurd hport0 (by decide)
        · exact not_or.mp hown
    have hone : hostPort.count colon ≤ 1 ↔ colon ∉ lowered before := by
      rw [hcolons, ← List.count_eq_zero, hcount]
      omega
    rw [PortShown, hshown, hone]
    exact or_congr_left (iff_of_false hhead hbefore)
  · rw [lowered, List.map_eq_nil_iff]
    refine ⟨fun hnil => .inr ⟨digits, hnil ▸ hcolon⟩, fun hempty => ?_⟩
    rcases hempty with hnil | ⟨back, hcut⟩
    · rw [hnil] at htext
      cases before <;> cases htext
    · exact (Prod.mk.inj (Option.some.inj (hcolon.symm.trans hcut))).1

end

theorem parseHostPort_some {scheme hostPort host : Bytes} {port : Int}
    (h : parseHostPort scheme hostPort = some (host, port)) : HostPort scheme hostPort host port := by
  unfold parseHostPort at h
  cases hcolon : portColon hostPort with
  | none =>
    rw [hcolon] at h
    obtain ⟨found, hfound, heq⟩ := Option.map_eq_some_iff.mp h
    obtain ⟨rfl, rfl⟩ := Prod.mk.inj heq
    exact .alone hfound hcolon
  | some split =>
    rw [hcolon] at h
    obtain ⟨value, hvalue, hrest⟩ := Option.bind_eq_some_iff.mp h
    obtain ⟨found, hfound, heq⟩ := Option.map_eq_some_iff.mp hrest
    obtain ⟨rfl, rfl⟩ := Prod.mk.inj heq
    by_cases hhead : hostPort.head? = some openBracket
    · exact .bracketed hhead hcolon hfound hvalue
    · exact .plain hhead hcolon hfound hvalue

end Agiru.Uri
