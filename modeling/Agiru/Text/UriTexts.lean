import Agiru.Text.Uris

/-! The canonical text of a `Uri`, and the text that `UriBuilder` makes of its parts.

What was read is written and read again: the scheme and the host in lower case, a bare path as a slash, a port
only if it is not the scheme's own. A host that holds colons but is not in brackets is then read as a host and a
port, unless a port stands behind it (`Ported`); and the builder keeps no user information (`Built`). -/
namespace Agiru.Uri
open Bytes
open Bytes.Ch Ch

variable {uri : UriValue}
variable {form : Form}
variable {kind : UriKind}

/-! ### An authority, written -/

/-- A port as `Authority` writes it. -/
def portText (port : Int) : Bytes := if port < 0 then [] else colon :: natText port.toNat

/-- The user information as `AbsoluteUri` writes it. -/
def userText (userInfo : Bytes) : Bytes := if userInfo = [] then [] else userInfo ++ [commercialAt]

theorem authority_eq (uri : UriValue) : uri.authority = uri.host ++ portText uri.port := by
  unfold UriValue.authority portText
  split
  · rw [List.append_nil]
  · rfl

theorem portText_free {c : UInt8} (hdigit : isDigit c = false) (hc : c ≠ colon) (port : Int) :
    c ∉ portText port := by
  unfold portText
  split
  · exact List.not_mem_nil
  · refine List.not_mem_cons_of_ne_of_not_mem hc fun hmem => ?_
    rw [isDigit_natText hmem] at hdigit
    cases hdigit

section
variable {scheme hostPort host : Bytes} {port : Int} (h : HostPort scheme hostPort host port)
include h

theorem HostPort.free {c : UInt8} (hc : c = slash ∨ c = question ∨ c = hash) : c ∉ host ++ portText port := by
  obtain ⟨hslash, hquestion, hhash⟩ := hostChar_free h.hchars
  rw [List.mem_append, not_or]
  rcases hc with rfl | rfl | rfl
  · exact ⟨hslash, portText_free rfl (by decide) port⟩
  · exact ⟨hquestion, portText_free rfl (by decide) port⟩
  · exact ⟨hhash, portText_free rfl (by decide) port⟩

theorem HostPort.noAt (hat : commercialAt ∉ hostPort) : commercialAt ∉ host ++ portText port := by
  rw [List.mem_append, not_or]
  exact ⟨h.hat hat, portText_free rfl (by decide) port⟩

/-- It is read again. -/
theorem HostPort.again (hshown : PortShown scheme hostPort) :
    parseHostPort scheme (host ++ portText port) = some (host, port) := by
  rcases h.hport with rfl | ⟨hport, hle, hown, hcolon⟩
  · have hnone : portColon host = none := by
      rcases h.hshown.mp hshown with hopen | hfree | hport
      · exact h.halone (.inl hopen)
      · exact h.halone (.inr hfree)
      · exact absurd hport (by decide)
    rw [portText, if_pos (by decide), List.append_nil, parseHostPort, hnone]
    exact congrArg (Option.map (·, -1)) h.hhost
  · have hvalue : (port.toNat : Int) = port := Int.toNat_of_nonneg hport
    have hdigits : colon ∉ natText port.toNat := colon_digits fun c hc => isDigit_natText hc
    have hread : parsePort scheme (natText port.toNat) = some port := by
      rw [parsePort_natText hle (hvalue.symm ▸ hown), hvalue]
    rw [portText, if_neg (Int.not_lt.mpr hport), parseHostPort, hcolon _ hdigits]
    simp only [hread, h.hhost, Option.bind_some, Option.map_some]

/-- It is not, if colons of the host are left to be taken for one before a port. -/
theorem HostPort.lost (hshown : ¬ PortShown scheme hostPort) {found : Bytes × Int}
    (hfound : parseHostPort scheme (host ++ portText port) = some found) : found.1 ≠ host := by
  rw [h.hshown, not_or, not_or, not_not] at hshown
  obtain ⟨hopen, hcolon, hport⟩ := hshown
  rw [portText, if_pos (Int.not_le.mp hport), List.append_nil, parseHostPort, portColon_plain hopen] at hfound
  cases hcut : Occurs.cutLast colon host with
  | none => exact absurd hcolon (Occurs.cutLast_none.mp hcut)
  | some split =>
    rw [hcut] at hfound
    obtain ⟨value, -, hrest⟩ := Option.bind_eq_some_iff.mp hfound
    obtain ⟨shorter, hshorter, rfl⟩ := Option.map_eq_some_iff.mp hrest
    intro hsame
    have hlength := congrArg List.length (hsame.symm.trans (parseHost_some hshorter).1)
    rw [(Occurs.cutLast_some.mp hcut).1, lowered, List.length_map, List.length_append, List.length_cons] at hlength
    omega

end

/-- What of an authority stands behind the user information. -/
def hostPort (authority : Bytes) : Bytes := (Occurs.cutLast commercialAt authority).elim authority Prod.snd

/-- The user information of an authority. -/
def userInfo (authority : Bytes) : Bytes := (Occurs.cutLast commercialAt authority).elim [] Prod.fst

theorem parseAuthority_some {scheme authority user host : Bytes} {port : Int}
    (h : parseAuthority scheme authority = some (user, host, port)) :
    user = userInfo authority ∧ HostPort scheme (hostPort authority) host port ∧
      commercialAt ∉ hostPort authority ∧ ∀ c ∈ user, c ∈ authority := by
  unfold parseAuthority at h
  unfold userInfo hostPort
  cases hcut : Occurs.cutLast commercialAt authority with
  | none =>
    rw [hcut] at h
    obtain ⟨found, hfound, heq⟩ := Option.map_eq_some_iff.mp h
    obtain ⟨rfl, rfl⟩ := Prod.mk.inj heq
    exact ⟨rfl, parseHostPort_some hfound, Occurs.cutLast_none.mp hcut, fun c hc => (nomatch hc)⟩
  | some split =>
    rw [hcut] at h
    obtain ⟨found, hfound, heq⟩ := Option.map_eq_some_iff.mp h
    obtain ⟨rfl, rfl⟩ := Prod.mk.inj heq
    obtain ⟨htext, hfree⟩ := Occurs.cutLast_some.mp hcut
    exact ⟨rfl, parseHostPort_some hfound, hfree, fun c hc => htext ▸ List.mem_append_left _ hc⟩

theorem parseAuthority_text (scheme user : Bytes) {text : Bytes} (hat : commercialAt ∉ text) :
    parseAuthority scheme (userText user ++ text) = (parseHostPort scheme text).map (user, ·) := by
  by_cases hnil : user = []
  · rw [userText, if_pos hnil, List.nil_append, parseAuthority, Occurs.cutLast_none.mpr hat, hnil]
  · rw [userText, if_neg hnil, List.append_assoc, List.singleton_append, parseAuthority,
      Occurs.cutLast_some.mpr ⟨rfl, hat⟩]

/-! ### The texts of a URI that was read -/

/-- The same URI, whatever it was read from. -/
structure Same (one other : UriValue) : Prop where
  scheme : one.scheme = other.scheme
  userInfo : one.userInfo = other.userInfo
  host : one.host = other.host
  port : one.portNumber = other.portNumber
  path : one.absolutePath = other.absolutePath
  query : one.query = other.query
  fragment : one.fragment = other.fragment

/-- A text that means a URI, and is its own canonical text. -/
def Canonical (kind : UriKind) (text : Bytes) (uri : UriValue) : Prop :=
  ∃ again, parse text kind = some again ∧ Same again uri ∧ again.absoluteUri = text

/-- The scheme of a text. -/
def schemeText (text : Bytes) : Bytes := lowered (text.take (schemeLength text))

/-- The authority of a text, if it has one. -/
def authorityText (text : Bytes) : Option Bytes :=
  let rest := text.drop (schemeLength text + 1)
  if [slash, slash].isPrefixOf rest then
    some ((rest.drop 2).takeWhile fun c => c ≠ slash && c ≠ question && c ≠ hash)
  else none

/-- A path, or an authority, follows the scheme. -/
def Hierarchical (text : Bytes) : Prop := (text.drop (schemeLength text + 1)).head? = some slash

/-- The port of a text's authority shows wherever its host holds colons. -/
def Ported (text : Bytes) : Prop :=
  ∀ authority ∈ authorityText text, PortShown (schemeText text) (hostPort authority)

/-- An authority without a host. -/
def Hostless (authority : Bytes) : Prop :=
  hostPort authority = [] ∨ ∃ digits, Occurs.cutLast colon (hostPort authority) = some ([], digits)

/-- A text without user information, but with a host or a path; or without an authority, if it needs no host. -/
def Built (text : Bytes) : Prop :=
  match authorityText text with
  | none => hostNeeded (schemeText text) = false
  | some authority => userInfo authority = [] ∧
      ¬ (Hostless authority ∧ (text.drop (schemeLength text + 3 + authority.length)).head? ≠ some slash)

theorem form_schemeText (form : Form) : schemeText form.text = lowered form.scheme := by
  rw [schemeText, form_scheme]

/-- What ends a path. -/
theorem tail_head (form : Form) {c : UInt8} (h : (form.query ++ form.fragment).head? = some c) :
    c = question ∨ c = hash := by
  rcases form.hquery.1 with hquery | hquery
  · rw [hquery, List.nil_append] at h
    rcases form.hfragment with hfragment | hfragment
    · rw [hfragment] at h
      cases h
    · exact .inr (Option.some.inj (h.symm.trans hfragment))
  · rw [List.head?_append, hquery] at h
    exact .inl (Option.some.inj h).symm

/-- Two slashes behind the scheme begin an authority. -/
theorem slashes_rest (form : Form) :
    [slash, slash] <+: form.front ++ (form.path ++ (form.query ++ form.fragment)) ↔
      form.authority.isSome = true := by
  rw [← slashes_iff, ← List.append_assoc]
  refine ⟨fun hbegins => ?_, fun hbegins => hbegins.trans (List.prefix_append _ _)⟩
  have htail : (form.query ++ form.fragment).head? ≠ some slash := fun hhead => by
    rcases tail_head form hhead with hc | hc <;> exact absurd hc (by decide)
  generalize form.front ++ form.path = hier at hbegins ⊢
  match hier with
  | [] =>
    obtain ⟨behind, hbehind⟩ := hbegins
    exact absurd (by rw [← List.nil_append (form.query ++ form.fragment), ← hbehind]; rfl) htail
  | [c] =>
    obtain ⟨behind, hbehind⟩ := hbegins
    have hsecond : slash :: behind = form.query ++ form.fragment := (List.cons.inj hbehind).2
    exact absurd (by rw [← hsecond]; rfl) htail
  | first :: second :: hier =>
    obtain ⟨behind, hbehind⟩ := hbegins
    obtain ⟨hfirst, hrest⟩ := List.cons.inj hbehind
    exact ⟨hier, by rw [← hfirst, ← (List.cons.inj hrest).1]; rfl⟩

/-- What follows an authority. -/
theorem path_head (form : Form) {authority : Bytes} (h : form.authority = some authority) :
    (form.path = [] ∨ form.path.head? = some slash) ∧
      ∀ c, (form.path ++ (form.query ++ form.fragment)).head? = some c → c = slash ∨ c = question ∨ c = hash := by
  have hroot := form.hroot
  rw [h] at hroot
  refine ⟨hroot, fun c hc => ?_⟩
  rcases hroot with hnil | hhead
  · rw [hnil, List.nil_append] at hc
    exact .inr (tail_head form hc)
  · rw [List.head?_append, hhead] at hc
    exact .inl (Option.some.inj hc).symm

theorem form_authorityText (form : Form) : authorityText form.text = form.authority := by
  rw [authorityText, form_rest]
  simp only [List.isPrefixOf_iff_prefix, slashes_rest]
  cases hauthority : form.authority with
  | none => rfl
  | some authority =>
    obtain ⟨hslash, hquestion, hhash⟩ := form.hauthority authority hauthority
    rw [Option.isSome_some, if_pos rfl, Form.front, hauthority]
    refine congrArg some (span_append (fun c hc => ?_) fun c hc => ?_).1
    · simp only [Bool.and_eq_true, decide_eq_true_eq]
      exact ⟨⟨fun heq => hslash (heq ▸ hc), fun heq => hquestion (heq ▸ hc)⟩, fun heq => hhash (heq ▸ hc)⟩
    · rcases (path_head form hauthority).2 c hc with rfl | rfl | rfl <;> decide

theorem form_pathless (form : Form) {authority : Bytes} (h : form.authority = some authority) :
    (form.text.drop (schemeLength form.text + 3 + authority.length)).head? ≠ some slash ↔ form.path = [] := by
  have hrest : form.text.drop (schemeLength form.text + 3 + authority.length) =
      form.path ++ (form.query ++ form.fragment) := by
    have hsplit : schemeLength form.text + 3 + authority.length =
        schemeLength form.text + 1 + (authority.length + 1 + 1) := by omega
    rw [hsplit, ← List.drop_drop, form_rest, Form.front, h, Option.elim_some, List.cons_append, List.cons_append,
      List.drop_succ_cons, List.drop_succ_cons, List.drop_left]
  rw [hrest]
  refine ⟨fun hhead => (path_head form h).1.resolve_right fun hslash => hhead ?_, fun hnil hhead => ?_⟩
  · rw [List.head?_append, hslash]
    rfl
  · rw [hnil, List.nil_append] at hhead
    rcases tail_head form hhead with hc | hc <;> exact absurd hc (by decide)

/-- The canonical text of a URI, from its parts. -/
def canonText (slashes : Bool) (uri : UriValue) : Bytes :=
  uri.scheme ++ colon ::
    ((if slashes then slash :: slash :: (userText uri.userInfo ++ (uri.host ++ portText uri.port)) else []) ++
      (uri.absolutePath ++ (uri.queryText ++ uri.fragmentText)))

/-- What is known of a URI that was read of a form. -/
structure ReadOf (form : Form) (uri : UriValue) : Prop where
  hread : form.read = some uri
  horiginal : uri.original = form.text
  hscheme : uri.scheme = lowered form.scheme
  hpath : uri.path = form.path
  hquery : uri.query = form.query.tail
  hfragment : uri.fragment = form.fragment.tail
  hnone : form.authority = none → uri.userInfo = [] ∧ uri.host = [] ∧ uri.port = -1
  hsome : ∀ authority, form.authority = some authority →
    uri.userInfo = userInfo authority ∧ HostPort uri.scheme (hostPort authority) uri.host uri.port ∧
      commercialAt ∉ hostPort authority ∧ ∀ c ∈ uri.userInfo, c ∈ authority

theorem readOf_form (h : form.read = some uri) : ReadOf form uri := by
  have hread := h
  unfold Form.read at h
  cases hauthority : form.authority with
  | none =>
    rw [hauthority] at h
    obtain rfl := Option.some.inj h
    exact ⟨hread, rfl, rfl, rfl, rfl, rfl, fun _ => ⟨rfl, rfl, rfl⟩,
        fun a ha => absurd (hauthority.symm.trans ha) nofun⟩
  | some authority =>
    rw [hauthority] at h
    obtain ⟨⟨user, host, port⟩, hparse, rfl⟩ := Option.map_eq_some_iff.mp h
    refine ⟨hread, rfl, rfl, rfl, rfl, rfl, fun hnone => absurd (hauthority.symm.trans hnone) nofun, fun a ha => ?_⟩
    obtain rfl := Option.some.inj (hauthority.symm.trans ha)
    exact parseAuthority_some hparse

/-- The first two slashes of a text are those of its authority. -/
theorem slashes_first (form : Form) :
    (Occurs.cut [slash, slash] form.text).map (·.1.length) = some (form.scheme.length + 1) ↔
      form.authority.isSome = true := by
  have htext : form.text =
      form.scheme ++ [colon] ++ (form.front ++ (form.path ++ (form.query ++ form.fragment))) := by
    rw [Form.text, List.append_assoc, List.singleton_append]
  have hlength : (form.scheme ++ [colon]).length = form.scheme.length + 1 := List.length_append
  rw [← slashes_rest, Option.map_eq_some_iff]
  constructor
  · intro hslashes
    obtain ⟨found, hcut, hfound⟩ := hslashes
    have hspec := htext.symm.trans ((Occurs.cut_spec hcut).1.trans (List.append_assoc ..))
    obtain ⟨-, hrest⟩ := List.append_inj hspec (hlength.trans hfound.symm)
    exact ⟨found.2, hrest.symm⟩
  · intro hrest
    obtain ⟨more, hmore⟩ := hrest
    refine ⟨(form.scheme ++ [colon], more), ?_, hlength⟩
    rw [htext, ← hmore, ← List.append_assoc]
    refine Occurs.cut_eq _ _ fun k hk hbegins => ?_
    have hslash : (form.scheme ++ [colon])[k]? = some slash := by
      obtain ⟨behind, hbehind⟩ := hbegins
      have hat : (form.scheme ++ [colon] ++ [slash, slash] ++ more)[k]? = some slash := by
        rw [← List.head?_drop, ← hbehind]
        rfl
      rwa [List.append_assoc, List.getElem?_append_left hk] at hat
    have hmem := List.mem_of_getElem? hslash
    rcases List.mem_append.mp hmem with hscheme | hcolon
    · exact absurd (schemeRun_all true form.hscheme.2 slash hscheme) (by decide)
    · exact absurd (List.mem_singleton.mp hcolon) (by decide)

theorem absoluteUri_eq (h : ReadOf form uri) : uri.absoluteUri = canonText form.authority.isSome uri := by
  have hne : uri.scheme ≠ [] := by
    rw [h.hscheme, lowered, ne_eq, List.map_eq_nil_iff]
    exact form.hscheme.1
  have hslashes : (uri.host ≠ [] ∨ (Occurs.cut [slash, slash] uri.original).map (·.1.length) =
      some (uri.scheme.length + 1)) ↔ form.authority.isSome = true := by
    rw [h.horiginal, h.hscheme, lowered, List.length_map, slashes_first]
    refine or_iff_right_of_imp fun hhost => ?_
    cases hauthority : form.authority with
    | none => exact absurd (h.hnone hauthority).2.1 hhost
    | some authority => rfl
  rw [UriValue.absoluteUri, if_neg hne, canonText, authority_eq]
  simp only [hslashes, List.append_assoc, List.cons_append, List.nil_append, userText]

/-! ### Reading the texts again -/

theorem schemeChar_lower (c : UInt8) (first : Bool) : schemeChar (lower c) first = schemeChar c first := by
  unfold schemeChar isAlpha isDigit lower plus minus dot
  grind

theorem schemeRun_lowered (first : Bool) (text : Bytes) : schemeRun first (lowered text) =
    schemeRun first text := by
  induction text generalizing first with
  | nil => rfl
  | cons c rest ih =>
    rw [lowered, List.map_cons, schemeRun, schemeRun, schemeChar_lower, ← lowered, ih]

theorem ReadOf.scheme_text (h : ReadOf form uri) :
    (uri.scheme ≠ [] ∧ schemeRun true uri.scheme = uri.scheme.length) ∧ lowered uri.scheme = uri.scheme := by
  rw [h.hscheme, schemeRun_lowered, lowered_lowered, lowered, List.length_map, ne_eq, List.map_eq_nil_iff]
  exact ⟨form.hscheme, rfl⟩

theorem queryText_head (uri : UriValue) : uri.queryText = [] ∨ uri.queryText.head? = some question := by
  unfold UriValue.queryText
  split
  · exact .inl rfl
  · exact .inr rfl

theorem fragmentText_head (uri : UriValue) : uri.fragmentText = [] ∨ uri.fragmentText.head? = some hash := by
  unfold UriValue.fragmentText
  split
  · exact .inl rfl
  · exact .inr rfl

theorem queryText_tail (uri : UriValue) : uri.queryText.tail = uri.query := by
  unfold UriValue.queryText
  split
  · next hnil => rw [hnil, List.tail_nil]
  · rfl

theorem fragmentText_tail (uri : UriValue) : uri.fragmentText.tail = uri.fragment := by
  unfold UriValue.fragmentText
  split
  · next hnil => rw [hnil, List.tail_nil]
  · rfl

theorem ReadOf.query_free (h : ReadOf form uri) : hash ∉ uri.queryText := by
  unfold UriValue.queryText
  split
  · exact List.not_mem_nil
  · rw [h.hquery]
    exact List.not_mem_cons_of_ne_of_not_mem (by decide) fun hmem => form.hquery.2 (List.mem_of_mem_tail hmem)

/-- A text with the scheme, the query and the fragment of a URI that was read. -/
theorem ReadOf.exists_again (h : ReadOf form uri) (authority : Option Bytes)
    (path : Bytes) (hauthority : ∀ a ∈ authority, slash ∉ a ∧ question ∉ a ∧ hash ∉ a)
    (hpath : question ∉ path ∧ hash ∉ path)
    (hroot : if authority.isSome then path = [] ∨ path.head? = some slash else ¬ [slash, slash] <+: path) :
    ∃ again : Form, again.authority = authority ∧
      again.text = uri.scheme ++ colon :: (authority.elim [] (fun a => slash :: slash :: a) ++
        (path ++ (uri.queryText ++ uri.fragmentText))) ∧
      again.read = authority.elim
        (some ⟨again.text, uri.scheme, [], [], -1, path, uri.query, uri.fragment⟩)
        fun a => (parseAuthority uri.scheme a).map fun (user, host, port) =>
          ⟨again.text, uri.scheme, user, host, port, path, uri.query, uri.fragment⟩ := by
  obtain ⟨hscheme, hlowered⟩ := h.scheme_text
  refine ⟨⟨uri.scheme, authority, path, uri.queryText, uri.fragmentText, hscheme, hauthority, hpath, hroot,
    ⟨queryText_head uri, h.query_free⟩, fragmentText_head uri⟩, rfl, rfl, ?_⟩
  unfold Form.read
  simp only [hlowered, queryText_tail, fragmentText_tail]
  cases authority with
  | none | some a => rfl

theorem canonical_iff {again : Form} (hkind : kind ≠ .relative) : Canonical kind again.text uri ↔
      ∃ found, again.read = some found ∧ Same found uri ∧ canonText again.authority.isSome found = again.text := by
  unfold Canonical
  rw [parse_text again hkind]
  exact exists_congr fun found => and_congr_right fun hread => by rw [absoluteUri_eq (readOf_form hread)]

theorem absolutePath_root (h : ReadOf form uri) {authority : Bytes} (hauthority : form.authority = some authority) :
    uri.absolutePath = [] ∧ uri.path = [] ∧ uri.host = [] ∨ uri.absolutePath.head? = some slash := by
  unfold UriValue.absolutePath
  by_cases hpath : uri.path = []
  · by_cases hhost : uri.host = []
    · exact .inl ⟨by rw [if_neg fun hboth => hboth.2 hhost, hpath], hpath, hhost⟩
    · exact .inr (by rw [if_pos ⟨hpath, hhost⟩]; rfl)
  · rw [if_neg fun hboth => hpath hboth.1]
    rw [h.hpath] at hpath ⊢
    exact .inr ((path_head form hauthority).1.resolve_left hpath)

theorem absolutePath_free (h : ReadOf form uri) : question ∉ uri.absolutePath ∧ hash ∉ uri.absolutePath := by
  unfold UriValue.absolutePath
  split
  · decide
  · exact h.hpath ▸ form.hpath

/-- A text of the authority of a URI, some user information and some path is canonical if and only if these are the
URI's own and the port shows. -/
theorem authority_again (h : ReadOf form uri) {authority : Bytes}
    (hauthority : form.authority = some authority) (hkind : kind ≠ .relative) (user path : Bytes)
    (huser : ∀ c ∈ user, c ∈ authority) (hpath : question ∉ path ∧ hash ∉ path)
    (hroot : path = [] ∨ path.head? = some slash) (hempty : path = [] → uri.host = []) :
    Canonical kind (uri.scheme ++ colon :: (slash :: slash :: (userText user ++ (uri.host ++ portText uri.port)) ++
        (path ++ (uri.queryText ++ uri.fragmentText)))) uri ↔
      PortShown uri.scheme (hostPort authority) ∧ user = uri.userInfo ∧ path = uri.absolutePath := by
  obtain ⟨-, hhostPort, hat, -⟩ := h.hsome authority hauthority
  have hfree : ∀ a ∈ some (userText user ++ (uri.host ++ portText uri.port)), slash ∉ a ∧ question ∉ a ∧
      hash ∉ a := by
    intro a ha
    obtain rfl := Option.some.inj ha
    obtain ⟨hslash, hquestion, hhash⟩ := form.hauthority authority hauthority
    have huserText : ∀ c, c ∉ authority → c ≠ commercialAt → c ∉ userText user := by
      intro c hc hne hmem
      unfold userText at hmem
      split at hmem
      · cases hmem
      · rcases List.mem_append.mp hmem with hmem | hmem
        · exact hc (huser c hmem)
        · exact hne (List.mem_singleton.mp hmem)
    simp only [List.mem_append (t := uri.host ++ portText uri.port), not_or]
    exact ⟨⟨huserText _ hslash (by decide), hhostPort.free (.inl rfl)⟩,
      ⟨huserText _ hquestion (by decide), hhostPort.free (.inr (.inl rfl))⟩,
      huserText _ hhash (by decide), hhostPort.free (.inr (.inr rfl))⟩
  obtain ⟨again, hsome, htext, hread⟩ := h.exists_again _ _ hfree hpath hroot
  rw [Option.elim_some] at htext hread
  simp only [parseAuthority_text _ _ (hhostPort.noAt hat)] at hread
  have habsolute : ∀ (host : Bytes), host = uri.host → (if path = [] ∧ host ≠ [] then [slash] else path) = path :=
    fun host hhost => if_neg fun hboth => hboth.2 (hhost.trans (hempty hboth.1))
  rw [← htext, canonical_iff hkind, hsome]
  refine ⟨fun ⟨found, hfound, hsame, _⟩ => ?_, fun ⟨hshown, huserInfo, hsamePath⟩ => ?_⟩
  · rw [hread, Option.map_map] at hfound
    obtain ⟨⟨host, port⟩, hparse, rfl⟩ := Option.map_eq_some_iff.mp hfound
    refine ⟨by_contra fun hshown => hhostPort.lost hshown hparse hsame.host, hsame.userInfo, ?_⟩
    exact (habsolute host hsame.host).symm.trans hsame.path
  · rw [hhostPort.again hshown] at hread
    refine ⟨_, hread, ⟨rfl, huserInfo, rfl, rfl, ?_, rfl, rfl⟩, ?_⟩
    · exact (habsolute uri.host rfl).trans hsamePath
    · rw [htext, canonText]
      exact congrArg (fun shown => uri.scheme ++ colon :: (slash :: slash :: (userText user ++
        (uri.host ++ portText uri.port)) ++ (shown ++ (uri.queryText ++ uri.fragmentText))))
        (habsolute uri.host rfl)

/-! ### The builder's text -/

/-- A path as `Path` keeps it. -/
def rooted (path : Bytes) : Bytes :=
  if path = [] then [slash] else if path.head? = some slash then path else slash :: path

theorem rooted_head (path : Bytes) : (rooted path).head? = some slash := by
  unfold rooted
  split
  · rfl
  · split
    · assumption
    · rfl

theorem rooted_eq {path : Bytes} (h : path.head? = some slash) : rooted path = path := by
  rw [rooted, if_neg (fun hnil => by rw [hnil] at h; cases h), if_pos h]

theorem rooted_free {c : UInt8} {path : Bytes} (h : c ∉ path) (hc : c ≠ slash) : c ∉ rooted path := by
  unfold rooted
  split
  · exact fun hmem => hc (List.mem_singleton.mp hmem)
  · split
    · exact h
    · exact List.not_mem_cons_of_ne_of_not_mem hc h

theorem ReadOf.port_known (h : ReadOf form uri) :
    uri.port = -1 ∨ 0 ≤ uri.port ∧ uri.port ≠ defaultPort uri.scheme := by
  cases hauthority : form.authority with
  | none => exact .inl (h.hnone hauthority).2.2
  | some authority =>
    exact (h.hsome authority hauthority).2.1.hport.imp_right fun hport => ⟨hport.1, hport.2.2.1⟩

theorem builder_text (h : ReadOf form uri) :
    (UriParts.ofUri uri).toString = uri.scheme ++ colon :: (slash :: slash :: (uri.host ++ portText uri.port) ++
      (rooted uri.absolutePath ++ (uri.queryText ++ uri.fragmentText))) := by
  obtain ⟨⟨-, hrun⟩, hlowered⟩ := h.scheme_text
  have hscheme : (UriParts.ofUri uri).scheme = uri.scheme := by
    show (lowered uri.scheme).takeWhile (· ≠ colon) = uri.scheme
    rw [hlowered, List.takeWhile_eq_self_iff]
    refine fun c hc => decide_eq_true fun heq => ?_
    exact absurd (heq ▸ schemeRun_all true hrun c hc) (by decide)
  have hport : (if 0 ≤ (UriParts.ofUri uri).port ∧ (UriParts.ofUri uri).port ≠ defaultPort
      (UriParts.ofUri uri).scheme
      then colon :: natText (UriParts.ofUri uri).port.toNat else []) = portText uri.port := by
    rw [hscheme]
    show (if 0 ≤ (if uri.isDefaultPort then -1 else uri.portNumber) ∧
      (if uri.isDefaultPort then -1 else uri.portNumber) ≠ defaultPort uri.scheme
      then colon :: natText (if uri.isDefaultPort then -1 else uri.portNumber).toNat else []) = portText uri.port
    rcases h.port_known with hnone | ⟨hport, hown⟩
    · rw [UriValue.isDefaultPort, hnone]
      rfl
    · have hshown : ¬ decide (uri.port < 0) = true := fun hlt => absurd (of_decide_eq_true hlt)
        (Int.not_lt.mpr hport)
      rw [UriValue.isDefaultPort, if_neg hshown, UriValue.portNumber, if_pos hport, if_pos ⟨hport, hown⟩, portText,
        if_neg (Int.not_lt.mpr hport)]
  have hpath : (UriParts.ofUri uri).path = rooted uri.absolutePath := by
    show (if (if uri.absolutePath = [] then [slash] else uri.absolutePath).head? = some slash then _ else _) = _
    unfold rooted
    split
    · rw [if_pos List.head?_cons]
    · rfl
  have hquery : (UriParts.ofUri uri).query = uri.query := by
    show (if uri.queryText.head? = some question then uri.queryText.tail else uri.queryText) = uri.query
    rcases queryText_head uri with hnil | hhead
    · rw [hnil, if_neg (by decide), ← queryText_tail, hnil, List.tail_nil]
    · rw [if_pos hhead, queryText_tail]
  have hfragment : (UriParts.ofUri uri).fragment = uri.fragment := by
    show (if uri.fragmentText.head? = some hash then uri.fragmentText.tail else uri.fragmentText) = uri.fragment
    rcases fragmentText_head uri with hnil | hhead
    · rw [hnil, if_neg (by decide), ← fragmentText_tail, hnil, List.tail_nil]
    · rw [if_pos hhead, fragmentText_tail]
  have hne : rooted uri.absolutePath ≠ [] := fun hnil => by
    have := rooted_head uri.absolutePath
    rw [hnil] at this
    cases this
  rw [UriParts.toString, hport, hpath, hquery, hfragment, hscheme, if_neg hne]
  simp only [List.append_assoc, List.cons_append, List.nil_append]
  rfl

/-- The builder's text of a URI without an authority has an empty one. -/
theorem builder_again (h : ReadOf form uri) (hauthority : form.authority = none)
    (hkind : kind ≠ .relative) (hpath : form.path.head? = some slash) :
    Canonical kind (UriParts.ofUri uri).toString uri ↔ hostNeeded uri.scheme = false := by
  obtain ⟨huser, hhost, hport⟩ := h.hnone hauthority
  have habsolute : uri.absolutePath = form.path := by
    rw [UriValue.absolutePath, if_neg fun hboth => hboth.2 hhost, h.hpath]
  have hfree : ∀ a ∈ some ([] : Bytes), slash ∉ a ∧ question ∉ a ∧ hash ∉ a := by
    intro a ha
    obtain rfl := Option.some.inj ha
    exact ⟨List.not_mem_nil, List.not_mem_nil, List.not_mem_nil⟩
  obtain ⟨again, hsome, htext, hread⟩ := h.exists_again _ _ hfree form.hpath (.inr hpath)
  rw [Option.elim_some] at htext hread
  have hbuilder : (UriParts.ofUri uri).toString = again.text := by
    rw [builder_text h, htext, habsolute, rooted_eq hpath, hhost, hport]
    rfl
  rw [hbuilder, canonical_iff hkind, hsome, hread]
  have hparse : parseAuthority uri.scheme [] = if hostNeeded uri.scheme then none else some ([], [], -1) := by
    show ((parseHost uri.scheme []).map (·, (-1 : Int))).map (([] : Bytes), ·) = _
    unfold parseHost
    cases hostNeeded uri.scheme with
    | true | false => rfl
  rw [hparse]
  cases hostNeeded uri.scheme with
  | true => exact iff_of_false (fun ⟨found, hfound, _⟩ => (nomatch hfound)) Bool.noConfusion
  | false =>
    have hfound : ∀ original, UriValue.absolutePath
        ⟨original, uri.scheme, [], [], -1, form.path, uri.query, uri.fragment⟩ = form.path :=
      fun _ => if_neg fun hboth => hboth.2 rfl
    refine iff_of_true ⟨_, rfl, ⟨rfl, huser.symm, hhost.symm, ?_, (hfound _).trans habsolute.symm, rfl, rfl⟩, ?_⟩ rfl
    · show defaultPort uri.scheme = uri.portNumber
      rw [UriValue.portNumber, hport]
      rfl
    · rw [htext]
      exact congrArg (fun shown => uri.scheme ++ colon :: ([slash, slash] ++
        (shown ++ (uri.queryText ++ uri.fragmentText)))) (hfound _)

/-- The canonical text of a URI without an authority. -/
theorem plain_again (h : ReadOf form uri) (hauthority : form.authority = none)
    (hkind : kind ≠ .relative) : Canonical kind (canonText false uri) uri := by
  obtain ⟨huser, hhost, hport⟩ := h.hnone hauthority
  have habsolute : uri.absolutePath = form.path := by
    rw [UriValue.absolutePath, if_neg fun hboth => hboth.2 hhost, h.hpath]
  have hroot := form.hroot
  rw [hauthority] at hroot
  obtain ⟨again, hnone, htext, hread⟩ :=
    h.exists_again none form.path (fun a ha => (nomatch ha)) form.hpath hroot
  rw [Option.elim_none] at htext hread
  have hsame : canonText false uri = again.text := by
    rw [htext, canonText, habsolute]
    rfl
  have hfound : ∀ original, UriValue.absolutePath
      ⟨original, uri.scheme, [], [], -1, form.path, uri.query, uri.fragment⟩ = form.path :=
    fun _ => if_neg fun hboth => hboth.2 rfl
  rw [hsame, canonical_iff hkind, hnone, hread]
  refine ⟨_, rfl, ⟨rfl, huser.symm, hhost.symm, ?_, (hfound _).trans habsolute.symm, rfl, rfl⟩, ?_⟩
  · show defaultPort uri.scheme = uri.portNumber
    rw [UriValue.portNumber, hport]
    rfl
  · rw [htext]
    exact congrArg (fun shown => uri.scheme ++ colon :: ([] ++ (shown ++ (uri.queryText ++ uri.fragmentText))))
      (hfound _)

/-- The canonical text means the same URI if and only if the port of a host with colons shows; so does the
builder's, if moreover there is no user information to lose and no path to be added. -/
theorem canonical_uri {text : Bytes} {kind : UriKind} {uri : UriValue} (h : parse text kind = some uri)
    (habsolute : uri.isAbsoluteUri = true) :
    (Canonical kind uri.absoluteUri uri ↔ Ported text) ∧
      (Hierarchical text →
        (Canonical kind (UriParts.ofUri uri).toString uri ↔ Ported text ∧ Built text)) := by
  obtain ⟨hkind, hlength⟩ := absolute_of_parse h habsolute
  obtain ⟨form, rfl⟩ := exists_form hlength
  rw [parse_text form hkind] at h
  have hread := readOf_form h
  rw [absoluteUri_eq hread]
  unfold Ported Built
  rw [form_authorityText, form_schemeText, ← hread.hscheme]
  cases hauthority : form.authority with
  | none =>
    refine ⟨iff_of_true ?_ fun a ha => (by cases ha), fun hhierarchical => ?_⟩
    · exact plain_again hread hauthority hkind
    · rw [Hierarchical, form_rest, Form.front, hauthority, Option.elim_none, List.nil_append] at hhierarchical
      rw [builder_again hread hauthority hkind ?_]
      · exact (and_iff_right fun a ha => (by cases ha)).symm
      · cases hpath : form.path with
        | cons c rest =>
          rw [hpath] at hhierarchical
          exact hhierarchical
        | nil =>
          rw [hpath, List.nil_append] at hhierarchical
          rcases tail_head form hhierarchical with hc | hc <;> exact absurd hc (by decide)
  | some authority =>
    obtain ⟨huser, hhostPort, -, hmem⟩ := hread.hsome authority hauthority
    have hported : (∀ a ∈ some authority, PortShown uri.scheme (hostPort a)) ↔
        PortShown uri.scheme (hostPort authority) :=
      ⟨fun hall => hall authority rfl, fun hshown a ha => Option.some.inj ha ▸ hshown⟩
    rw [hported]
    refine ⟨?_, fun _ => ?_⟩
    · refine (authority_again hread hauthority hkind _ _ hmem (absolutePath_free hread) ?_ fun hnil => ?_).trans
        (and_iff_left ⟨rfl, rfl⟩)
      · exact (absolutePath_root hread hauthority).imp_left And.left
      · exact (absolutePath_root hread hauthority).elim (fun hempty => hempty.2.2) fun hhead => by
          rw [hnil] at hhead
          cases hhead
    · obtain ⟨hquestion, hhash⟩ := absolutePath_free hread
      rw [builder_text hread]
      refine (authority_again hread hauthority hkind [] _ (fun c hc => (by cases hc))
        ⟨rooted_free hquestion (by decide), rooted_free hhash (by decide)⟩ (.inr (rooted_head _)) fun hnil =>
            ?_).trans
        (and_congr_right fun _ => and_congr ?_ ?_)
      · have := rooted_head uri.absolutePath
        rw [hnil] at this
        cases this
      · rw [huser, eq_comm]
      · have hhostless : Hostless authority ↔ uri.host = [] := hhostPort.hempty.symm
        rw [hhostless, form_pathless form hauthority, ← hread.hpath]
        rcases absolutePath_root hread hauthority with ⟨hnil, hpath, hhost⟩ | hhead
        · rw [hnil]
          exact iff_of_false (by decide) fun hnone => hnone ⟨hhost, hpath⟩
        · refine iff_of_true (rooted_eq hhead) fun hboth => ?_
          obtain ⟨hhost, hpath⟩ := hboth
          rw [UriValue.absolutePath, if_neg fun hboth => hboth.2 hhost, hpath] at hhead
          cases hhead

/-- `http://u@[::1]:8080?q` -/
def bracketed : Bytes := [104, 116, 116, 112, 58, 47, 47, 117, 64, 91, 58, 58, 49, 93, 58, 56, 48, 56, 48, 63, 113]

def bracketedUri : UriValue :=
  { original := bracketed, scheme := [104, 116, 116, 112], userInfo := [117], host := [91, 58, 58, 49, 93],
    port := 8080, query := [113] }

/-- Its canonical text means the same; the builder loses the user information. -/
theorem canonical_uri_bracketed : Canonical .absolute bracketedUri.absoluteUri bracketedUri ∧
    ¬ Canonical .absolute (UriParts.ofUri bracketedUri).toString bracketedUri := by
  have hparse : parse bracketed .absolute = some bracketedUri := by decide +kernel
  have htext : authorityText bracketed = some [117, 64, 91, 58, 58, 49, 93, 58, 56, 48, 56, 48] := by
    decide +kernel
  have hhierarchical : Hierarchical bracketed := by
    unfold Hierarchical
    decide +kernel
  refine ⟨(canonical_uri hparse rfl).1.mpr fun authority hauthority => ?_, fun hcanonical => ?_⟩
  · obtain rfl := Option.some.inj (htext.symm.trans hauthority)
    exact .inl (by decide +kernel)
  · obtain ⟨-, hbuilt⟩ := ((canonical_uri hparse rfl).2 hhierarchical).mp hcanonical
    rw [Built, htext] at hbuilt
    exact absurd hbuilt.1 (by decide +kernel)

/-- `http://a:1:80/`, as it is read, and its canonical text, as that is read. -/
def colons : UriValue :=
  { original := [104, 116, 116, 112, 58, 47, 47, 97, 58, 49, 58, 56, 48, 47], scheme := [104, 116, 116, 112],
    host := [97, 58, 49], path := [47] }

def colonsAgain : UriValue :=
  { original := [104, 116, 116, 112, 58, 47, 47, 97, 58, 49, 47], scheme := [104, 116, 116, 112], host :=
      [97], port := 1,
    path := [47] }

/-- The host `a:1`, whose port is the scheme's own, becomes the host `a` with the port 1. -/
theorem canonical_uri_colons :
    parse colons.original .absolute = some colons ∧ colons.portNumber = 80 ∧
      parse colons.absoluteUri .absolute = some colonsAgain ∧ ¬ Canonical .absolute colons.absoluteUri colons := by
  have hagain : parse colons.absoluteUri .absolute = some colonsAgain := by decide +kernel
  refine ⟨by decide +kernel, by decide +kernel, hagain, fun ⟨again, hread, hsame, _⟩ => ?_⟩
  obtain rfl := Option.some.inj (hagain.symm.trans hread)
  exact absurd hsame.host (by decide)

end Agiru.Uri
