import Eidetic.Lib.Uri
import Eidetic.Tools.FetchUrl
import Mathlib.Data.List.TakeDrop

/-!
# What is requested for a location

`run_fetch_url` takes a location that starts with `http://` or `https://` as it
is and puts any other behind the netloc of the current URL. `_pinned_fetch` then
requests the path and the query that `urlparse` finds there, so without the
parameters of the last segment and without an empty query, and httpx takes the
dot segments out of the path. This is set against the resolution of the location
in the generic syntax of URIs.

`refersTo_iff` says what a URL with one of the two schemes asks for, component
by component. From it there is one lemma for each kind of location: with a scheme
of the two (`refersTo_http_iff`), with an authority (`refersTo_authority_iff`),
from a `/`, a `?` or a `#` on (`refersTo_stop_iff`), and any other, which runs into
the netloc (`refersTo_start_iff`). `sentPath_iff` says of which paths it is the one
that is resolved: `urlparse` finds parameters in the last segment only, so a path
without them goes to httpx, which differs from the resolution in the final `/` of
a path that ends in a dot segment. `refersTo_redirectUrl_iff` puts the kinds
together for a redirect from a URL that was accepted.

A `RightLocation` is told from the location and the current URL alone. Its last
case is a coincidence: a location that repeats what is in the netloc and leads out
of the path with `..`.
-/

namespace Eidetic.Tools

open Eidetic.Lib Eidetic.Py

/-! ## What is requested -/

/-- The components of what `urlparse` reads. -/
def components (url : Text) : UriReference := uriReference (cleaned url)

/-- `(parsed.path or "/")`. -/
def rooted (path : Text) : Text := if path.isEmpty then ['/'] else path

def EndsInDots (path : Text) : Prop := lastSegment path = ['.'] ∨ lastSegment path = ['.', '.']

instance (path : Text) : Decidable (EndsInDots path) := inferInstanceAs (Decidable (_ ∨ _))

/-- What httpx makes of the path of a URL: it drops the dot segments, and the
final `/` where the path ends in one, as from `/path/./to/somewhere/..` to
`/path/to`. -/
structure DropsDots (normalizePath : Text → Text) : Prop where
  inner : ∀ path, path.head? = some '/' → ¬ EndsInDots path →
    normalizePath path = removeDotSegments path
  final : ∀ path, path.head? = some '/' → EndsInDots path →
    normalizePath path = rooted (removeDotSegments path).dropLast

/-- `(f"?{parsed.query}" if parsed.query else "")`. -/
def sentQuery (query : Text) : Option Text := if query.isEmpty then none else some query

/-- What a URL asks of its server: it has a path, without dot segments, and no
fragment is sent. -/
def asRequested (r : UriReference) : UriReference :=
  { r with path := rooted (removeDotSegments r.path), fragment := none }

section

variable (u : Unicode) (normalizePath : Text → Text)

/-- What `_pinned_fetch` requests for a URL. The address that the connection is
pinned to stands for the netloc. -/
def requested (url : Text) : Except UrlError UriReference :=
  (urlparse u url).map fun parsed => {
    scheme := some parsed.scheme
    authority := some parsed.netloc
    path := normalizePath (rooted parsed.path)
    query := sentQuery parsed.query
    fragment := none }

/-- What is requested for `next` is what `location` refers to from `current`. -/
def RefersTo (current location next : Text) : Prop :=
  requested u normalizePath next
    = .ok (asRequested (resolveReference (components current) (components location)))

/-- The path and the query of the request are those of the pinned URL. -/
theorem pinnedUrl_eq (parsed : ParseResult) (port : Nat) (ip : Text) :
    pinnedUrl parsed port ip
      = parsed.scheme ++ "://".toList ++ (if ':' ∈ ip then '[' :: ip ++ [']'] else ip) ++
          ':' :: (toString port).toList ++ rooted parsed.path ++
          ((sentQuery parsed.query).map ('?' :: ·)).getD [] := by
  have hquery : ((sentQuery parsed.query).map ('?' :: ·)).getD []
      = if parsed.query.isEmpty then [] else '?' :: parsed.query := by
    unfold sentQuery
    split <;> rfl
  rw [hquery]
  simp [pinnedUrl, rooted]

/-! ## The locations that are followed -/

/-- The checks of `urlparse`. -/
def readNetloc (netloc : Text) : Except UrlError Unit := do
  checkBrackets netloc
  checkNetloc u netloc

/-- The leading characters that `urlparse` drops of a URL, but not of what
follows a netloc. -/
def leading (location : Text) : Text :=
  (location.takeWhile fun c => c.toNat ≤ 0x20).filter fun c => c ≠ '\t' ∧ c ≠ '\r' ∧ c ≠ '\n'

/-- The path of the request for a URL with the given one. -/
def sentPath (path : Text) : Text := normalizePath (rooted (splitParams path).1)

/-- A path that is requested as it is resolved: `urlparse` finds no parameters,
and httpx drops no final `/`. -/
def KeptPath (path : Text) : Prop :=
  ';' ∉ lastSegment path ∧ (EndsInDots path → removeDotSegments path = ['/'])

/-- A location that the code follows to where it refers. -/
inductive RightLocation (current location : Text) : Prop
  | absolute (hhttp : isHttp location = true)
      (hread : readNetloc u ((components location).authority.getD []) = .ok ())
      (hpath : KeptPath (components location).path)
      (hquery : (components location).query ≠ some [])
  | rooted (hscheme : (components location).scheme = none)
      (hauthority : (components location).authority = none) (hleading : leading location = [])
      (hrooted : (components location).path.head? = some '/')
      (hpath : KeptPath (components location).path)
      (hquery : (components location).query ≠ some [])
  | withoutPath (hscheme : (components location).scheme = none)
      (hauthority : (components location).authority = none) (hleading : leading location = [])
      (hnone : (components location).path = [])
      (hcurrent : Tools.rooted (removeDotSegments (components current).path) = ['/'])
      (hquery : (components location).query ≠ some [])
      (hkept : (components location).query = none → (components current).query = none)
  /-- Its authority is what gets into the netloc, and `..` leads out of what gets
  into the path. -/
  | climbing (hhttp : isHttp location = false)
      (hscheme : (components location).scheme = none ∨
        (components location).scheme = (components current).scheme)
      (authority : Text) (hauthority : (components location).authority = some authority)
      (hnetloc : some authority = (components current).authority.map
        (· ++ leading location ++ (cleaned location).takeWhile inAuthority))
      (hread : readNetloc u authority = .ok ())
      (hpath : sentPath normalizePath ('/' :: '/' :: (authority ++ (components location).path))
        = Tools.rooted (removeDotSegments (components location).path))
      (hquery : (components location).query ≠ some [])

end

/-! ## The components of a URL -/

theorem leading_append_cleaned (location : Text) :
    leading location ++ cleaned location
      = location.filter fun c => c ≠ '\t' ∧ c ≠ '\r' ∧ c ≠ '\n' := by
  rw [leading, cleaned, ← List.filter_append, List.takeWhile_append_dropWhile]

theorem inAuthority_leading {location : Text} {c : Char} (h : c ∈ leading location) :
    inAuthority c = true := by
  have hc := List.mem_takeWhile_imp (List.mem_filter.mp h).1
  have hlow : c.toNat ≤ 0x20 := by simpa using hc
  have hne : ∀ d : Char, 0x20 < d.toNat → c ≠ d := by
    intro d hd heq
    rw [heq] at hlow
    omega
  simp only [inAuthority, Bool.and_eq_true, decide_eq_true_eq]
  exact ⟨⟨hne '/' (by decide), hne '?' (by decide)⟩, hne '#' (by decide)⟩

/-- What an accepted URL is made of. -/
structure Absolute (u : Unicode) (url scheme netloc : Text) : Prop where
  http : scheme = Tools.http ∨ scheme = Tools.https
  read : ∃ rest, components url = ⟨uriTail rest, some scheme, some netloc⟩
  checked : readNetloc u netloc = .ok ()
  inAuthority : ∀ c ∈ netloc, inAuthority c = true
  clean : ∀ c ∈ netloc, c ≠ '\t' ∧ c ≠ '\r' ∧ c ≠ '\n'

theorem isSchemeChar_ne {c : Char} (h : isSchemeChar c = true) :
    c ≠ ':' ∧ Lib.inAuthority c = true := by
  have hne : ∀ d : Char, isSchemeChar d = false → c ≠ d := by
    intro d hd heq
    rw [heq, hd] at h
    exact absurd h (by simp)
  refine ⟨hne ':' (by decide), ?_⟩
  simp only [Lib.inAuthority, Bool.and_eq_true, decide_eq_true_eq]
  exact ⟨⟨hne '/' (by decide), hne '?' (by decide)⟩, hne '#' (by decide)⟩

theorem before_append_after {c : Char} {s : Text} (h : c ∈ s) : s = before c s ++ c :: after c s := by
  refine (List.takeWhile_append_dropWhile (p := (· ≠ c)) (l := s)).symm.trans (congrArg _ ?_)
  unfold after
  cases hdrop : s.dropWhile (· ≠ c) with
  | nil =>
    have hall := List.dropWhile_eq_nil_iff.mp hdrop c h
    exact absurd hall (by simp)
  | cons d rest =>
    have hd := List.head?_dropWhile_not (· ≠ c) s
    rw [hdrop] at hd
    obtain rfl : d = c := by simpa using hd
    rfl

theorem urlparse_parts {u : Unicode} {url : Text} {parsed : ParseResult}
    (h : urlparse u url = .ok parsed) :
    readNetloc u parsed.netloc = .ok () ∧
      parsed.scheme = (splitScheme (cleaned url)).1 ∧ parsed.netloc
      = if startsWith (splitScheme (cleaned url)).2 ['/', '/'] then
          (splitNetloc ((splitScheme (cleaned url)).2.drop 2)).1 else [] := by
  unfold urlparse at h
  dsimp only at h
  generalize hnetloc : (if startsWith (splitScheme (cleaned url)).2 ['/', '/'] then
    splitNetloc ((splitScheme (cleaned url)).2.drop 2) else ([], (splitScheme (cleaned url)).2)) = n
    at h
  cases hbrackets : checkBrackets n.1 with
  | error e =>
    rw [hbrackets] at h
    exact absurd h (by simp [bind, Except.bind])
  | ok _ =>
    rw [hbrackets] at h
    cases hcheck : checkNetloc u n.1 with
    | error e =>
      rw [hcheck] at h
      exact absurd h (by simp [bind, Except.bind])
    | ok _ =>
      rw [hcheck] at h
      obtain rfl := Except.ok.inj h
      refine ⟨?_, rfl, ?_⟩
      · show (do checkBrackets n.1; checkNetloc u n.1) = _
        rw [hbrackets, hcheck]
        rfl
      show n.1 = _
      rw [← hnetloc]
      split <;> rfl

/-- A URL with one of the two schemes and a netloc. -/
theorem absolute_of_urlparse {u : Unicode} {url : Text} {parsed : ParseResult}
    (hparsed : urlparse u url = .ok parsed) (hscheme : parsed.scheme = http ∨ parsed.scheme = https)
    (hhost : parsed.netloc ≠ []) : Absolute u url parsed.scheme parsed.netloc := by
  obtain ⟨hchecked, hname, hnetloc⟩ := urlparse_parts hparsed
  have hne : parsed.scheme ≠ [] := by
    rcases hscheme with h | h
    · rw [h]; decide
    · rw [h]; decide
  -- there is a scheme
  obtain ⟨hread, hcolon, hchars⟩ : splitScheme (cleaned url)
      = ((before ':' (cleaned url)).map Char.toLower, after ':' (cleaned url)) ∧
        ':' ∈ cleaned url ∧ (before ':' (cleaned url)).all isSchemeChar = true := by
    unfold splitScheme at hname ⊢
    dsimp only at hname ⊢
    split at hname
    next hcond =>
      rw [if_pos hcond]
      exact ⟨rfl, hcond.1, hcond.2.2⟩
    next => exact absurd hname hne
  rw [hread] at hname hnetloc
  dsimp only at hname hnetloc
  -- and a netloc
  split at hnetloc
  next hslashes =>
    obtain ⟨more, hmore⟩ := startsWith_iff.mp hslashes
    rw [← hmore] at hnetloc
    have hspan : parsed.netloc = more.takeWhile Lib.inAuthority := by
      rw [hnetloc, splitNetloc, List.span_eq_takeWhile_dropWhile]
      refine congrArg (fun p => more.takeWhile p) (funext fun c => ?_)
      simp [Lib.inAuthority, Bool.and_assoc]
    have hcleaned : cleaned url = before ':' (cleaned url) ++ ':' :: '/' :: '/' :: more := by
      refine (before_append_after hcolon).trans ?_
      rw [← hmore]
      rfl
    refine ⟨hscheme, ⟨more.dropWhile Lib.inAuthority, ?_⟩, hchecked, ?_, ?_⟩
    · unfold components uriReference
      rw [hcleaned, splitUriScheme_append]
      · dsimp only
        rw [splitAuthority, hspan, hname]
        rfl
      · intro hnil
        rw [hname, hnil] at hne
        exact hne rfl
      · exact fun c hc => isSchemeChar_ne (List.all_eq_true.mp hchars c hc)
    · intro c hc
      rw [hspan] at hc
      exact List.mem_takeWhile_imp hc
    · intro c hc
      rw [hspan] at hc
      have hmem : c ∈ cleaned url := by
        rw [hcleaned]
        have hin : c ∈ more := (List.takeWhile_sublist _).subset hc
        simp [hin]
      simpa using (List.mem_filter.mp hmem).2
  next => exact absurd hnetloc hhost

theorem absolute_of_accepted {u : Unicode} {w : Web} {hop : Nat} {url : Text} {t : Target}
    (h : validateUrl u w hop url = .accepted t) :
    ∃ parsed, urlparse u url = .ok parsed ∧ Absolute u url parsed.scheme parsed.netloc := by
  unfold validateUrl at h
  split at h
  next => exact absurd h (by simp)
  next parsed hparsed =>
    refine ⟨parsed, hparsed, ?_⟩
    split at h
    next => exact absurd h (by simp)
    next hscheme =>
      refine absolute_of_urlparse hparsed (Decidable.or_iff_not_not_and_not.mpr hscheme) fun hnil => ?_
      have hnone : parsed.hostname u = none := by
        rw [ParseResult.hostname, hnil]
        rfl
      rw [hnone] at h
      exact absurd h (by simp)

/-! ## A scheme and a netloc -/

theorem schemeChars {scheme : Text} (h : scheme = http ∨ scheme = https) :
    (∃ rest, scheme = 'h' :: rest) ∧ scheme.map Char.toLower = scheme ∧
      (∀ c ∈ scheme, c ≠ ':' ∧ Lib.inAuthority c = true) ∧
      scheme.filter (fun c => c ≠ '\t' ∧ c ≠ '\r' ∧ c ≠ '\n') = scheme := by
  have hhttp : http = ['h', 't', 't', 'p'] := by decide
  have hhttps : https = ['h', 't', 't', 'p', 's'] := by decide
  rcases h with heq | heq
  · rw [heq, hhttp]
    exact ⟨⟨_, rfl⟩, by decide, by simp [Lib.inAuthority], by decide⟩
  · rw [heq, hhttps]
    exact ⟨⟨_, rfl⟩, by decide, by simp [Lib.inAuthority], by decide⟩

theorem cleaned_scheme {scheme : Text} (h : scheme = http ∨ scheme = https) (more : Text) :
    cleaned (scheme ++ "://".toList ++ more) = scheme ++ ':' :: '/' :: '/' ::
      more.filter fun c => c ≠ '\t' ∧ c ≠ '\r' ∧ c ≠ '\n' := by
  obtain ⟨⟨rest, hh⟩, -, -, hfilter⟩ := schemeChars h
  have hslashes : "://".toList = [':', '/', '/'] := by decide
  have hdrop : ∀ more : Text, (scheme ++ more).dropWhile (fun c => c.toNat ≤ 0x20)
      = scheme ++ more := by
    intro more
    rw [hh, List.cons_append, List.dropWhile_cons_of_neg (by decide)]
  rw [hslashes, List.append_assoc, cleaned, hdrop, List.filter_append, hfilter]
  rfl

/-- A scheme in front of `://` is found there. -/
theorem components_scheme {url scheme rest : Text} (h : scheme = http ∨ scheme = https)
    (hcleaned : cleaned url = scheme ++ ':' :: '/' :: '/' :: rest) :
    components url = ⟨uriTail (rest.dropWhile Lib.inAuthority), some scheme,
      some (rest.takeWhile Lib.inAuthority)⟩ := by
  obtain ⟨⟨tail, hh⟩, hlower, hchars, -⟩ := schemeChars h
  have hne : scheme ≠ [] := by rw [hh]; simp
  unfold components uriReference
  rw [hcleaned, splitUriScheme_append hne hchars]
  dsimp only
  rw [splitAuthority, Option.map_some, hlower]

/-- The URL of a redirect whose location is put behind the netloc. -/
theorem cleaned_behind {u : Unicode} {url scheme netloc : Text} (h : Absolute u url scheme netloc)
    (location : Text) :
    cleaned (scheme ++ "://".toList ++ netloc ++ location)
      = scheme ++ ':' :: '/' :: '/' :: (netloc ++ leading location ++ cleaned location) := by
  have hnetloc : netloc.filter (fun c => c ≠ '\t' ∧ c ≠ '\r' ∧ c ≠ '\n') = netloc :=
    List.filter_eq_self.mpr fun c hc => by simpa using h.clean c hc
  rw [List.append_assoc, cleaned_scheme h.http, List.filter_append, hnetloc, List.append_assoc,
    leading_append_cleaned]

/-! ## What is requested for a URL with one of the two schemes -/

theorem uriTail_path (s : Text) : (uriTail s).path = before '?' (before '#' s) := by
  show s.takeWhile inPath = _
  unfold before
  rw [List.takeWhile_takeWhile]
  refine congrArg (fun p => s.takeWhile p) (funext fun c => ?_)
  simp [inPath]

/-- `urlparse` has an empty query for none. -/
theorem uriTail_query (s : Text) :
    (uriTail s).query.filter (· ≠ []) = sentQuery (after '?' (before '#' s)) := by
  have hsplit : s = s.takeWhile inPath ++ s.dropWhile inPath :=
    (List.takeWhile_append_dropWhile).symm
  have hchars : ∀ c ∈ s.takeWhile inPath, c ≠ '?' ∧ c ≠ '#' := fun c hc => by
    simpa [inPath] using List.mem_takeWhile_imp hc
  have hhash : before '#' s = s.takeWhile inPath ++ before '#' (s.dropWhile inPath) := by
    conv => lhs; rw [hsplit]
    exact List.takeWhile_append_of_pos fun c hc => by simpa using (hchars c hc).2
  have hquestion : (before '#' s).dropWhile (· ≠ '?')
      = (before '#' (s.dropWhile inPath)).dropWhile (· ≠ '?') := by
    rw [hhash]
    exact List.dropWhile_append_of_pos fun c hc => by simpa using (hchars c hc).1
  show (uriQuery (s.dropWhile inPath)).filter (· ≠ []) = sentQuery (after '?' (before '#' s))
  rw [after, hquestion]
  cases hdrop : s.dropWhile inPath with
  | nil => rfl
  | cons c rest =>
    have hc : c = '?' ∨ c = '#' := by
      have hnot := List.head?_dropWhile_not inPath s
      rw [hdrop] at hnot
      have hor : c = '?' ∨ c = '#' := by simpa [inPath, Classical.or_iff_not_imp_left] using hnot
      exact hor
    rcases hc with rfl | rfl
    · have hrest : before '#' ('?' :: rest) = '?' :: rest.takeWhile (· ≠ '#') := by
        rw [before, List.takeWhile_cons_of_pos (by decide)]
      rw [hrest, List.dropWhile_cons_of_neg (by decide)]
      show (some (rest.takeWhile (· ≠ '#'))).filter (· ≠ []) = sentQuery (rest.takeWhile (· ≠ '#'))
      cases rest.takeWhile (· ≠ '#') <;> rfl
    · have hrest : before '#' ('#' :: rest) = [] := by
        rw [before, List.takeWhile_cons_of_neg (by decide)]
      rw [hrest]
      rfl

theorem splitScheme_append {scheme rest : Text} (h : scheme = http ∨ scheme = https) :
    splitScheme (scheme ++ ':' :: rest) = (scheme, rest) := by
  obtain ⟨⟨tail, hh⟩, hlower, hchars, -⟩ := schemeChars h
  have hbefore : before ':' (scheme ++ ':' :: rest) = scheme := by
    rw [before, List.takeWhile_append_of_pos fun c hc => by simpa using (hchars c hc).1]
    simp
  have hafter : after ':' (scheme ++ ':' :: rest) = rest := by
    rw [after, List.dropWhile_append_of_pos fun c hc => by simpa using (hchars c hc).1]
    simp
  unfold splitScheme
  dsimp only
  rw [hbefore, hafter, hlower, if_pos]
  refine ⟨by simp, ?_, ?_⟩
  · rw [hh]
    rfl
  · rcases h with heq | heq
    · rw [heq]; decide
    · rw [heq]; decide

theorem requested_scheme {u : Unicode} {normalizePath : Text → Text} {url scheme rest : Text}
    (h : scheme = http ∨ scheme = https)
    (hcleaned : cleaned url = scheme ++ ':' :: '/' :: '/' :: rest) :
    requested u normalizePath url = (readNetloc u (rest.takeWhile inAuthority)).map fun _ => {
      scheme := some scheme
      authority := some (rest.takeWhile inAuthority)
      path := sentPath normalizePath (uriTail (rest.dropWhile inAuthority)).path
      query := (uriTail (rest.dropWhile inAuthority)).query.filter (· ≠ [])
      fragment := none } := by
  have hnetloc : splitNetloc rest = (rest.takeWhile inAuthority, rest.dropWhile inAuthority) := by
    rw [splitNetloc, List.span_eq_takeWhile_dropWhile]
    have hp : (fun c => decide (c ≠ '/' ∧ c ≠ '?' ∧ c ≠ '#')) = inAuthority :=
      funext fun c => by simp [inAuthority, Bool.and_assoc]
    rw [hp]
  have hparams : usesParams.any (·.toList == scheme) = true := by
    rcases h with heq | heq
    · rw [heq]; decide
    · rw [heq]; decide
  have hslashes : startsWith ('/' :: '/' :: rest) ['/', '/'] = true := startsWith_iff.mpr ⟨rest, rfl⟩
  unfold requested urlparse
  rw [hcleaned, splitScheme_append h]
  dsimp only
  rw [if_pos hslashes]
  show Except.map _ (do
    checkBrackets (splitNetloc rest).1
    checkNetloc u (splitNetloc rest).1
    _) = _
  rw [hnetloc]
  unfold readNetloc
  cases checkBrackets (rest.takeWhile inAuthority) with
  | error e => rfl
  | ok _ =>
    cases checkNetloc u (rest.takeWhile inAuthority) with
    | error e => rfl
    | ok _ =>
      show Except.map _ (Except.ok _) = Except.ok _
      unfold sentPath
      rw [uriTail_path, uriTail_query]
      simp only [Except.map, hparams, if_true, List.drop_succ_cons, List.drop_zero, hnetloc]

/-- `next` has one of the two schemes: what is requested for it, component by
component. -/
theorem refersTo_iff {u : Unicode} {normalizePath : Text → Text}
    {current location next scheme rest : Text} (h : scheme = http ∨ scheme = https)
    (hcleaned : cleaned next = scheme ++ ':' :: '/' :: '/' :: rest)
    {target : UriReference}
    (htarget : resolveReference (components current) (components location) = target) :
    RefersTo u normalizePath current location next ↔
      readNetloc u (rest.takeWhile inAuthority) = .ok () ∧ target.scheme = some scheme ∧
        target.authority = some (rest.takeWhile inAuthority) ∧
        sentPath normalizePath (uriTail (rest.dropWhile inAuthority)).path
          = rooted (removeDotSegments target.path) ∧
        (uriTail (rest.dropWhile inAuthority)).query.filter (· ≠ []) = target.query := by
  unfold RefersTo
  rw [htarget, requested_scheme h hcleaned]
  cases readNetloc u (rest.takeWhile inAuthority) with
  | error e => simp [Except.map]
  | ok _ =>
    obtain ⟨⟨path, query, fragment⟩, name, authority⟩ := target
    constructor
    · intro heq
      have hsame := Except.ok.inj heq
      exact ⟨rfl, (congrArg UriReference.scheme hsame).symm, (congrArg UriReference.authority hsame).symm,
        congrArg (fun r : UriReference => r.path) hsame,
        congrArg (fun r : UriReference => r.query) hsame⟩
    · rintro ⟨-, rfl, rfl, hpath, hquery⟩
      show Except.ok _ = Except.ok _
      rw [hpath, hquery]
      rfl

/-! ## Paths and queries that are kept -/

theorem splitParams_of_not_mem {path : Text} (h : ';' ∉ lastSegment path) :
    splitParams path = (path, []) := if_neg h

/-- The parameters are taken off the last segment. -/
theorem splitParams_append {init last : Text} (hlast : '/' ∉ last) (h : ';' ∈ last) :
    (splitParams (init ++ '/' :: last)).1 = init ++ '/' :: before ';' last := by
  have hsegment : afterLast '/' (init ++ '/' :: last) = last := lastSegment_append init hlast
  have htake : (init ++ '/' :: last).take ((init ++ '/' :: last).length - last.length)
      = init ++ ['/'] := by
    rw [show init ++ '/' :: last = (init ++ ['/']) ++ last by simp, List.length_append,
      Nat.add_sub_cancel, List.take_left]
  unfold splitParams
  dsimp only
  rw [hsegment, if_pos h, htake]
  simp

theorem rooted_concat (segments : List Text) (last : Text) :
    rooted (pathOf (segments ++ [last])) = pathOf (segments ++ [last]) := by
  rw [pathOf_concat, rooted, if_neg (by simp)]

theorem rooted_of_head {path : Text} (h : path.head? = some '/') : rooted path = path := by
  obtain ⟨rest, rfl⟩ := List.head?_eq_some_iff.mp h
  rfl

/-- What is left of a rooted path is shorter without its final `/`, unless it is `/`. -/
theorem final_iff {path : Text} (h : path.head? = some '/') :
    rooted (removeDotSegments path).dropLast = removeDotSegments path ↔
      removeDotSegments path = ['/'] := by
  constructor
  · intro heq
    obtain ⟨before, last, -, hleft⟩ := exists_removeDotSegments h
    have hpos : 0 < (removeDotSegments path).length := by
      rw [hleft, pathOf_concat, List.length_append, List.length_cons]
      omega
    by_cases hnil : (removeDotSegments path).dropLast = []
    · rw [hnil] at heq
      exact heq.symm
    · rw [rooted, if_neg (by simpa using hnil)] at heq
      have hlen := congrArg List.length heq
      rw [List.length_dropLast] at hlen
      omega
  · intro heq
    rw [heq]
    rfl

/-- Parameters are missing from the request. -/
theorem sentPath_params {normalizePath : Text → Text} (h : DropsDots normalizePath) {path : Text}
    (hhead : path.head? = some '/') (hparams : ';' ∈ lastSegment path) :
    (sentPath normalizePath path).length < (removeDotSegments path).length := by
  obtain ⟨init, hsplit, hinit, hlast⟩ := exists_lastSegment hhead
  generalize lastSegment path = last at hsplit hlast hparams
  subst hsplit
  obtain ⟨segments, -, hkept, hdots⟩ := removeDotSegments_last hinit
  have hsplit := before_append_after hparams
  have hinside : '/' ∉ before ';' last := fun hmem => hlast ((List.takeWhile_sublist _).subset hmem)
  have hshort : (before ';' last).length < last.length := by
    have hlen := congrArg List.length hsplit
    rw [List.length_append, List.length_cons] at hlen
    omega
  have hfull : removeDotSegments (init ++ '/' :: last) = pathOf (segments ++ [last]) := by
    refine hkept last ⟨hlast, ?_, ?_⟩
    · rintro rfl
      exact absurd hparams (by decide)
    · rintro rfl
      exact absurd hparams (by decide)
  have hroot : (init ++ '/' :: before ';' last).head? = some '/' := by
    rcases hinit with rfl | hinit
    · rfl
    · obtain ⟨rest, rfl⟩ := List.head?_eq_some_iff.mp hinit
      rfl
  have hsegment := lastSegment_append init hinside
  rw [hfull, sentPath, splitParams_append hlast hparams, rooted_of_head hroot, pathOf_concat,
    List.length_append, List.length_cons]
  by_cases hends : EndsInDots (init ++ '/' :: before ';' last)
  · rw [h.final _ hroot hends]
    rw [EndsInDots, hsegment] at hends
    obtain ⟨fewer, -, hleft, hfewer⟩ := hdots _ hends
    rw [hleft, pathOf_concat, List.dropLast_concat, rooted]
    split
    · rw [List.length_singleton]
      omega
    · omega
  · rw [h.inner _ hroot hends]
    rw [EndsInDots, hsegment, not_or] at hends
    rw [hkept _ ⟨hinside, hends.1, hends.2⟩, pathOf_concat, List.length_append, List.length_cons]
    omega

/-- A path is requested as it is resolved exactly when it is kept. -/
theorem sentPath_iff {normalizePath : Text → Text} (h : DropsDots normalizePath) {path : Text}
    (hpath : PathAbempty path) :
    sentPath normalizePath path = rooted (removeDotSegments (removeDotSegments path)) ↔
      KeptPath path := by
  rcases hpath with rfl | hhead
  · have hslash : ¬ EndsInDots ['/'] := by decide
    refine iff_of_true ((h.inner ['/'] rfl hslash).trans rfl) ⟨by decide, fun hdots => ?_⟩
    exact absurd hdots (by decide)
  obtain ⟨segments, last, -, hleft⟩ := exists_removeDotSegments hhead
  have hrooted : rooted (removeDotSegments path) = removeDotSegments path := by
    rw [hleft, rooted_concat]
  rw [removeDotSegments_idem (.inr hhead), hrooted]
  by_cases hparams : ';' ∈ lastSegment path
  · refine iff_of_false (fun heq => ?_) fun hkeeps => hkeeps.1 hparams
    have hless := sentPath_params h hhead hparams
    rw [heq] at hless
    exact absurd hless (Nat.lt_irrefl _)
  · rw [sentPath, splitParams_of_not_mem hparams, rooted_of_head hhead]
    by_cases hdots : EndsInDots path
    · rw [h.final path hhead hdots, final_iff hhead]
      exact ⟨fun heq => ⟨hparams, fun _ => heq⟩, fun hkeeps => hkeeps.2 hdots⟩
    · exact iff_of_true (h.inner path hhead hdots) ⟨hparams, fun h => absurd h hdots⟩

theorem filter_eq_self_iff {query : Option Text} :
    query.filter (· ≠ []) = query ↔ query ≠ some [] := by
  cases query with
  | none => simp
  | some q => simp [Option.filter]

/-! ## The kinds of locations -/

section

variable {u : Unicode} {normalizePath : Text → Text} {current scheme netloc location : Text}

/-- A location with one of the two schemes is requested as it is resolved, but for
what is dropped of it. -/
theorem refersTo_http_iff (hdrops : DropsDots normalizePath) (h : isHttp location = true) :
    RefersTo u normalizePath current location location ↔
      RightLocation u normalizePath current location := by
  obtain ⟨scheme, more, hscheme, heq⟩ : ∃ scheme more, (scheme = http ∨ scheme = https) ∧
      location = scheme ++ "://".toList ++ more := by
    unfold isHttp at h
    rcases Bool.or_eq_true_iff.mp h with h | h
    · obtain ⟨more, hmore⟩ := startsWith_iff.mp h
      refine ⟨http, more, .inl rfl, ?_⟩
      rw [← hmore, show "http://".toList = http ++ "://".toList by decide]
    · obtain ⟨more, hmore⟩ := startsWith_iff.mp h
      refine ⟨https, more, .inr rfl, ?_⟩
      rw [← hmore, show "https://".toList = https ++ "://".toList by decide]
  have hcleaned := cleaned_scheme hscheme more
  rw [← heq] at hcleaned
  have hlocation := components_scheme hscheme hcleaned
  have hsome : (components location).scheme.isSome = true := by rw [hlocation]; rfl
  have hpath := pathAbempty_of_stop (head_dropWhile_inAuthority
    (more.filter fun c => c ≠ '\t' ∧ c ≠ '\r' ∧ c ≠ '\n'))
  rw [refersTo_iff hscheme hcleaned (resolve_scheme _ hsome)]
  constructor
  · rintro ⟨hread, -, -, hsent, hquery⟩
    rw [hlocation] at hsent hquery
    refine .absolute h ?_ ?_ ?_
    · rw [hlocation]
      exact hread
    · rw [hlocation]
      exact (sentPath_iff hdrops hpath).mp hsent
    · rw [hlocation]
      exact filter_eq_self_iff.mp hquery
  · intro hright
    cases hright with
    | absolute _ hread hkept hquery =>
      rw [hlocation] at hread hkept hquery ⊢
      exact ⟨hread, rfl, rfl, (sentPath_iff hdrops hpath).mpr hkept, filter_eq_self_iff.mpr hquery⟩
    | rooted hnone => exact absurd hnone (by rw [hlocation]; simp)
    | withoutPath hnone => exact absurd hnone (by rw [hlocation]; simp)
    | climbing hhttp => exact absurd (h.symm.trans hhttp) (by simp)

/-- What is requested for a location that is put behind the netloc. -/
theorem refersTo_behind (h : Absolute u current scheme netloc) {target : UriReference}
    (htarget : resolveReference (components current) (components location) = target) :
    RefersTo u normalizePath current location (scheme ++ "://".toList ++ netloc ++ location) ↔
      readNetloc u (netloc ++ leading location ++ (cleaned location).takeWhile inAuthority) = .ok () ∧
        target.scheme = some scheme ∧
        target.authority
          = some (netloc ++ leading location ++ (cleaned location).takeWhile inAuthority) ∧
        sentPath normalizePath (uriTail ((cleaned location).dropWhile inAuthority)).path
          = rooted (removeDotSegments target.path) ∧
        (uriTail ((cleaned location).dropWhile inAuthority)).query.filter (· ≠ []) = target.query := by
  have hlead : ∀ c ∈ netloc ++ leading location, inAuthority c = true := by
    intro c hc
    rcases List.mem_append.mp hc with hc | hc
    · exact h.inAuthority c hc
    · exact inAuthority_leading hc
  rw [refersTo_iff h.http (cleaned_behind h location) htarget, List.takeWhile_append_of_pos hlead,
    List.dropWhile_append_of_pos hlead]

/-- Behind the netloc an authority becomes a part of the path. -/
theorem refersTo_authority_iff (h : Absolute u current scheme netloc) (hhttp : isHttp location = false)
    {name : Option Text} {authority more : Text}
    (hlocation : components location = ⟨uriTail more, name, some authority⟩)
    (hrest : (cleaned location).dropWhile inAuthority = '/' :: '/' :: (authority ++ more))
    (ha : ∀ c ∈ authority, inAuthority c = true) (hmore : ∀ c ∈ more.head?, inAuthority c = false) :
    RefersTo u normalizePath current location (scheme ++ "://".toList ++ netloc ++ location) ↔
      RightLocation u normalizePath current location := by
  obtain ⟨tail, hcurrent⟩ := h.read
  have hidem := removeDotSegments_idem (pathAbempty_of_stop hmore)
  -- what gets into the path, and the query
  have hslash : inPath '/' = true := by decide
  have hchars : ∀ c ∈ authority, inPath c = true := fun c hc => inPath_of_inAuthority (ha c hc)
  have hpath : (uriTail ('/' :: '/' :: (authority ++ more))).path
      = '/' :: '/' :: (authority ++ (uriTail more).path) := by
    show List.takeWhile inPath _ = _
    rw [List.takeWhile_cons_of_pos hslash, List.takeWhile_cons_of_pos hslash,
      List.takeWhile_append_of_pos hchars]
    rfl
  have hquery : (uriTail ('/' :: '/' :: (authority ++ more))).query = (uriTail more).query := by
    show uriQuery (List.dropWhile inPath _) = _
    rw [List.dropWhile_cons_of_pos hslash, List.dropWhile_cons_of_pos hslash,
      List.dropWhile_append_of_pos hchars]
    rfl
  -- and what it refers to
  have htarget : resolveReference (components current) (components location) = {
      path := removeDotSegments (uriTail more).path
      query := (uriTail more).query
      fragment := (uriTail more).fragment
      scheme := if name.isSome then name else some scheme
      authority := some authority } := by
    unfold resolveReference
    rw [hlocation, hcurrent]
    cases name <;> rfl
  have hscheme : (if name.isSome then name else some scheme) = some scheme ↔
      name = none ∨ name = some scheme := by
    cases name <;> simp
  rw [refersTo_behind h htarget, hrest, hpath, hquery]
  dsimp only
  rw [hidem, hscheme, filter_eq_self_iff]
  constructor
  · rintro ⟨hread, hname, hnetloc, hsent, hnonempty⟩
    rw [← Option.some.inj hnetloc] at hread
    refine .climbing hhttp ?_ authority (by rw [hlocation]) ?_ hread ?_ ?_
    · rw [hlocation, hcurrent]
      exact hname
    · rw [hcurrent]
      exact hnetloc
    · rw [hlocation]
      exact hsent
    · rw [hlocation]
      exact hnonempty
  · intro hright
    cases hright with
    | absolute htrue => exact absurd (htrue.symm.trans hhttp) (by simp)
    | rooted _ hnone => exact absurd hnone (by rw [hlocation]; simp)
    | withoutPath _ hnone => exact absurd hnone (by rw [hlocation]; simp)
    | climbing _ hname a hsome hnetloc hread hsent hnonempty =>
      rw [hlocation] at hname hsome hsent hnonempty
      rw [hcurrent] at hname hnetloc
      obtain rfl := Option.some.inj hsome
      have hnetloc := Option.some.inj hnetloc
      rw [hnetloc] at hread
      exact ⟨hread, hname, congrArg some hnetloc, hsent, hnonempty⟩

/-- Nothing of a location from a `/`, a `?` or a `#` on goes to the netloc but
what `urlparse` drops of a URL. -/
theorem refersTo_behind_stop (h : Absolute u current scheme netloc)
    (hstop : ∀ c ∈ (cleaned location).head?, inAuthority c = false) {target : UriReference}
    (htarget : resolveReference (components current) (components location) = target)
    (hscheme : target.scheme = some scheme) (hauthority : target.authority = some netloc) :
    RefersTo u normalizePath current location (scheme ++ "://".toList ++ netloc ++ location) ↔
      leading location = [] ∧
        sentPath normalizePath (uriTail (cleaned location)).path
          = rooted (removeDotSegments target.path) ∧
        (uriTail (cleaned location)).query.filter (· ≠ []) = target.query := by
  obtain ⟨htake, hdrop⟩ := takeWhile_inAuthority (a := []) (by simp) hstop
  rw [List.nil_append] at htake hdrop
  rw [refersTo_behind h htarget, htake, hdrop, hscheme, hauthority, List.append_nil]
  constructor
  · rintro ⟨-, -, hsame, hrest⟩
    exact ⟨by simpa using hsame, hrest⟩
  · rintro ⟨hleading, hrest⟩
    rw [hleading, List.append_nil]
    exact ⟨h.checked, rfl, rfl, hrest⟩

/-- A location without a path leaves the current one, and the query where it has none. -/
theorem refersTo_withoutPath_iff (hdrops : DropsDots normalizePath)
    (h : Absolute u current scheme netloc) (hhttp : isHttp location = false)
    (hlocation : components location = ⟨uriTail (cleaned location), none, none⟩)
    (hstop : ∀ c ∈ (cleaned location).head?, inAuthority c = false)
    (hpath : (uriTail (cleaned location)).path = []) :
    RefersTo u normalizePath current location (scheme ++ "://".toList ++ netloc ++ location) ↔
      RightLocation u normalizePath current location := by
  obtain ⟨tail, hcurrent⟩ := h.read
  have htarget : resolveReference (components current) (components location) = {
      path := (uriTail tail).path
      query := if (uriTail (cleaned location)).query.isSome then (uriTail (cleaned location)).query
        else (uriTail tail).query
      fragment := (uriTail (cleaned location)).fragment
      scheme := some scheme
      authority := some netloc } := by
    rw [hlocation, hcurrent]
    exact resolve_empty _ rfl rfl hpath
  have hsent : sentPath normalizePath [] = ['/'] := hdrops.inner ['/'] rfl (by decide)
  have hquery : (uriTail (cleaned location)).query.filter (· ≠ [])
        = (if (uriTail (cleaned location)).query.isSome then (uriTail (cleaned location)).query
            else (uriTail tail).query) ↔
      (uriTail (cleaned location)).query ≠ some [] ∧
        ((uriTail (cleaned location)).query = none → (uriTail tail).query = none) := by
    cases (uriTail (cleaned location)).query with
    | none => simpa using eq_comm
    | some query => simp [Option.filter]
  rw [refersTo_behind_stop h hstop htarget rfl rfl, hpath, hsent, hquery]
  constructor
  · rintro ⟨hleading, hcurrentPath, hnonempty, hkept⟩
    refine .withoutPath (by rw [hlocation]) (by rw [hlocation]) hleading ?_ ?_ ?_ ?_
    · rw [hlocation]
      exact hpath
    · rw [hcurrent]
      exact hcurrentPath.symm
    · rw [hlocation]
      exact hnonempty
    · rw [hlocation, hcurrent]
      exact hkept
  · intro hright
    cases hright with
    | absolute htrue => exact absurd (htrue.symm.trans hhttp) (by simp)
    | rooted _ _ _ hhead =>
      rw [hlocation, show (uriTail (cleaned location)).path = [] from hpath] at hhead
      exact absurd hhead (by simp)
    | withoutPath _ _ hleading _ hcurrentPath hnonempty hkept =>
      rw [hcurrent] at hcurrentPath
      rw [hlocation] at hnonempty
      rw [hlocation, hcurrent] at hkept
      exact ⟨hleading, hcurrentPath.symm, hnonempty, hkept⟩
    | climbing _ _ a hsome => exact absurd hsome (by rw [hlocation]; simp)

/-- A rooted path is requested as it is resolved when it is kept. -/
theorem refersTo_rooted_iff (hdrops : DropsDots normalizePath)
    (h : Absolute u current scheme netloc) (hhttp : isHttp location = false)
    (hlocation : components location = ⟨uriTail (cleaned location), none, none⟩)
    (hstop : ∀ c ∈ (cleaned location).head?, inAuthority c = false)
    (hpath : (uriTail (cleaned location)).path.head? = some '/') :
    RefersTo u normalizePath current location (scheme ++ "://".toList ++ netloc ++ location) ↔
      RightLocation u normalizePath current location := by
  obtain ⟨tail, hcurrent⟩ := h.read
  have hne : (uriTail (cleaned location)).path ≠ [] := by
    intro hnil
    rw [hnil] at hpath
    exact absurd hpath (by simp)
  have htarget : resolveReference (components current) (components location) = {
      path := removeDotSegments (uriTail (cleaned location)).path
      query := (uriTail (cleaned location)).query
      fragment := (uriTail (cleaned location)).fragment
      scheme := some scheme
      authority := some netloc } := by
    rw [hlocation, hcurrent, resolve_path _ rfl rfl hne, if_pos hpath]
  rw [refersTo_behind_stop h hstop htarget rfl rfl, filter_eq_self_iff, sentPath_iff hdrops (.inr hpath)]
  constructor
  · rintro ⟨hleading, hkept, hnonempty⟩
    refine .rooted (by rw [hlocation]) (by rw [hlocation]) hleading ?_ ?_ ?_
    · rw [hlocation]
      exact hpath
    · rw [hlocation]
      exact hkept
    · rw [hlocation]
      exact hnonempty
  · intro hright
    cases hright with
    | absolute htrue => exact absurd (htrue.symm.trans hhttp) (by simp)
    | rooted _ _ hleading _ hkept hnonempty =>
      rw [hlocation] at hkept hnonempty
      exact ⟨hleading, hkept, hnonempty⟩
    | withoutPath _ _ _ hnil =>
      rw [hlocation] at hnil
      exact absurd hnil hne
    | climbing _ _ a hsome => exact absurd hsome (by rw [hlocation]; simp)

/-- A location from a `/`, a `?` or a `#` on, or an empty one. -/
theorem refersTo_stop_iff (hdrops : DropsDots normalizePath) (h : Absolute u current scheme netloc)
    (hhttp : isHttp location = false)
    (hlocation : components location = ⟨uriTail (cleaned location), none, none⟩)
    (hstop : ∀ c ∈ (cleaned location).head?, inAuthority c = false) :
    RefersTo u normalizePath current location (scheme ++ "://".toList ++ netloc ++ location) ↔
      RightLocation u normalizePath current location := by
  rcases pathAbempty_of_stop hstop with hpath | hpath
  · exact refersTo_withoutPath_iff hdrops h hhttp hlocation hstop hpath
  · exact refersTo_rooted_iff hdrops h hhttp hlocation hstop hpath

/-- A location that neither names an authority nor stops at once goes to the
netloc, from its first character on. -/
theorem refersTo_start_iff (h : Absolute u current scheme netloc)
    (hhttp : isHttp location = false) (hauthority : (components location).authority = none)
    (htarget : (resolveReference (components current) (components location)).authority = none ∨
      (resolveReference (components current) (components location)).authority = some netloc)
    (hstart : (cleaned location).takeWhile inAuthority ≠ [])
    (hpath : (components location).scheme = none →
      (components location).path.head?.any inAuthority = true) :
    RefersTo u normalizePath current location (scheme ++ "://".toList ++ netloc ++ location) ↔
      RightLocation u normalizePath current location := by
  refine iff_of_false ?_ ?_
  · rw [refersTo_behind h rfl]
    rintro ⟨-, -, hsame, -⟩
    rcases htarget with hnone | hsome
    · rw [hnone] at hsame
      exact absurd hsame (by simp)
    · rw [hsome] at hsame
      have hlen := congrArg List.length (Option.some.inj hsame)
      have hpos := List.length_pos_iff.mpr hstart
      simp only [List.length_append] at hlen
      omega
  · intro hright
    cases hright with
    | absolute htrue => exact absurd (htrue.symm.trans hhttp) (by simp)
    | rooted hscheme _ _ hhead =>
      have hany := hpath hscheme
      rw [hhead] at hany
      exact absurd hany (by decide)
    | withoutPath hscheme _ _ hnil =>
      have hany := hpath hscheme
      rw [hnil] at hany
      exact absurd hany (by simp)
    | climbing _ _ a hsome => exact absurd (hauthority.symm.trans hsome) (by simp)

/-- A location that is put behind the netloc. -/
theorem refersTo_behind_iff (hdrops : DropsDots normalizePath) (h : Absolute u current scheme netloc)
    (hhttp : isHttp location = false) :
    RefersTo u normalizePath current location (scheme ++ "://".toList ++ netloc ++ location) ↔
      RightLocation u normalizePath current location := by
  have hslash : ¬ inAuthority '/' = true := by decide
  cases hs : splitUriScheme (cleaned location) with
  | mk name rest =>
    cases ha : splitAuthority rest with
    | mk a more =>
      have hlocation : components location = ⟨uriTail more, name.map (·.map Char.toLower), a⟩ := by
        unfold components uriReference
        rw [hs]
        dsimp only
        rw [ha]
      cases name with
      | some name =>
        obtain ⟨hsplit, hname⟩ := of_splitUriScheme hs
        cases a with
        | none =>
          refine refersTo_start_iff h hhttp (by rw [hlocation]) (.inl ?_) ?_ ?_
          · rw [hlocation, resolve_scheme _ rfl]
          · rw [hsplit, List.takeWhile_append_of_pos hname]
            simp [inAuthority]
          · intro hnone
            rw [hlocation] at hnone
            exact absurd hnone (by simp)
        | some a =>
          obtain ⟨hslashes, hin, hmore⟩ := of_splitAuthority ha
          refine refersTo_authority_iff h hhttp hlocation ?_ hin hmore
          rw [hsplit, hslashes, List.dropWhile_append_of_pos hname,
            List.dropWhile_cons_of_pos (by decide), List.dropWhile_cons_of_neg hslash]
      | none =>
        obtain rfl := of_splitUriScheme_none hs
        cases a with
        | some a =>
          obtain ⟨hslashes, hin, hmore⟩ := of_splitAuthority ha
          refine refersTo_authority_iff h hhttp hlocation ?_ hin hmore
          rw [hslashes, List.dropWhile_cons_of_neg hslash]
        | none =>
          obtain rfl := of_splitAuthority_none ha
          by_cases hstop : ∀ c ∈ (cleaned location).head?, inAuthority c = false
          · exact refersTo_stop_iff hdrops h hhttp hlocation hstop
          · cases hM : cleaned location with
            | nil => exact absurd (by simp [hM]) hstop
            | cons c rest =>
              have hc : inAuthority c = true := by simpa [hM] using hstop
              have hpath : (components location).path = c :: rest.takeWhile inPath := by
                rw [hlocation, hM]
                exact List.takeWhile_cons_of_pos (inPath_of_inAuthority hc)
              obtain ⟨tail, hcurrent⟩ := h.read
              refine refersTo_start_iff h hhttp (by rw [hlocation]) (.inr ?_) ?_ fun _ => ?_
              · rw [resolve_path _ (by rw [hlocation]; rfl) (by rw [hlocation]) (by rw [hpath]; simp),
                  hcurrent]
              · rw [hM, List.takeWhile_cons_of_pos hc]
                simp
              · rw [hpath]
                exact hc

end

/-- Where a redirect from an accepted URL leads is where its location refers to
exactly for some locations. -/
theorem refersTo_redirectUrl_iff {u : Unicode} {normalizePath : Text → Text}
    (hdrops : DropsDots normalizePath) {w : Web} {hop : Nat} {current location next : Text} {t : Target}
    (h : validateUrl u w hop current = .accepted t)
    (hnext : redirectUrl u current location = .ok next) :
    RefersTo u normalizePath current location next ↔ RightLocation u normalizePath current location := by
  unfold redirectUrl at hnext
  split at hnext
  next hhttp =>
    obtain rfl := Except.ok.inj hnext
    exact refersTo_http_iff hdrops hhttp
  next hhttp =>
    obtain ⟨parsed, hparsed, habsolute⟩ := absolute_of_accepted h
    rw [hparsed] at hnext
    obtain rfl := Except.ok.inj hnext
    exact refersTo_behind_iff hdrops habsolute (by simpa using hhttp)

end Eidetic.Tools
