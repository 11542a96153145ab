import Eidetic.Py.Url

/-!
# The connections that are made for a URL

`run_fetch_url` checks every address that a hop's hostname resolves to, and
connects to the first one. It skips an entry that it cannot read, also when that
is the first one, and the properties it asks for leave out the shared address
space 100.64.0.0/10, which is neither private nor global. `ingest_url` gives its
URL to a client that resolves names and follows redirects by itself.

A hop is one turn of the loop of `run_fetch_url`: the URL is validated, its name
is looked up, the addresses are checked, and the request goes to the first of
them; what the server answers decides whether there is another hop. Lookups,
clients and servers are arguments. The connections that a fetch makes are listed
with the hop and the addresses that had been checked for it, and `Guarded` is
asked of each.

What is checked is an address that can be read, so `public_of_checkInfos` says
of these that they are public, and `routable_iff_of_public` that a public
address is routable but for the shared space. The chain of hops is `Redirects`,
a relation that has one next URL at most; a fetch is guarded exactly when each
hop that sends a request has an address outside of the shared space first
(`fetchHops_guarded_iff`, by induction on the hops that are left).
-/

namespace Eidetic.Tools

open Eidetic.Py

/-! ## Outside of the backend -/

/-- What `socket.getaddrinfo` does. -/
inductive Lookup
  | gaierror (message : Text)
  /-- Another exception, as for a name that IDNA refuses. -/
  | raised
  | infos (addresses : List Text)

def Lookup.addresses : Lookup → List Text
  | .infos addresses => addresses
  | _ => []

structure Response where
  status : Nat
  location : Text := []
  /-- `int` of the `Content-Length`, where it has a value. -/
  contentLength : Option Int := none
  contentType : Text := []
  chunks : List (List UInt8) := []

/-- What httpx does with a request. -/
inductive Sent
  /-- It does not accept the URL. -/
  | refused
  /-- Connecting or reading fails. -/
  | failed
  | response (r : Response)

/-- Where a connection goes: the hop it is made for, the name that is looked up
there, the address and the port. -/
structure Dial where
  hop : Nat
  hostname : Text
  address : Text
  port : Nat
deriving DecidableEq

structure Web where
  lookup : Nat → Text → Lookup
  /-- The request of a hop, by its URL. -/
  send : Nat → Text → Sent
  /-- A client that follows redirects. -/
  client : Text → List Dial
  /-- The title and the text of a page. -/
  soup : List UInt8 → Text × Text

/-- A connection, and the addresses that have been checked for it. -/
structure Connection extends Dial where
  checked : List Text
deriving DecidableEq

/-- To an address that the hop's hostname resolved to, that was checked and is
globally routable, on port 80 or 443. -/
def Guarded (w : Web) (c : Connection) : Prop :=
  c.address ∈ (w.lookup c.hop c.hostname).addresses ∧ c.address ∈ c.checked ∧
    (∃ ip, ipAddress c.address = some ip ∧ ip.Routable) ∧ (c.port = 80 ∨ c.port = 443)

/-! ## `_resolve_and_validate` and `_validate_url` -/

/-- An exception. -/
inductive Failure
  | url (e : UrlError)
  | lookup
  | hostnameNotAscii
  | request
deriving DecidableEq

/-- A hostname, its first address, and the addresses that were checked. -/
structure Target where
  hostname : Text
  ip : Text
  checked : List Text

inductive Validated
  | rejected (reason : Text)
  | raised (e : Failure)
  | accepted (t : Target)

def isNonPublic (ip : IpAddress) : Bool :=
  ip.isLoopback || ip.isPrivate || ip.isLinkLocal || ip.isReserved || ip.isMulticast ||
    ip.isUnspecified

/-- The loop over the entries: the first that is not public, or all that have
been checked. -/
def checkInfos : List Text → Except Text (List Text)
  | [] => .ok []
  | raw :: rest =>
    match ipAddress raw with
    -- `continue`
    | none => checkInfos rest
    | some ip =>
      if isNonPublic ip then .error raw
      else
        match checkInfos rest with
        | .error other => .error other
        | .ok checked => .ok (raw :: checked)

def resolveAndValidate (hostname : Text) : Lookup → Validated
  | .gaierror message =>
    .rejected ("Rejected: could not resolve '".toList ++ hostname ++ "': ".toList ++ message)
  | .raised => .raised .lookup
  | .infos addresses =>
    match checkInfos addresses with
    | .error raw =>
      .rejected ("Rejected: '".toList ++ hostname ++ "' resolves to non-public address ".toList
        ++ raw)
    | .ok checked =>
      match addresses with
      | [] => .rejected ("Rejected: no addresses resolved for '".toList ++ hostname ++ "'".toList)
      | first :: _ => .accepted ⟨hostname, first, checked⟩

/-- `_ALLOWED_PORTS`. -/
def allowedPorts : List (Option Nat) := [some 80, some 443, none]

def http : Text := "http".toList
def https : Text := "https".toList

/-- A port as an f-string writes it. -/
def portText : Option Nat → Text
  | none => "None".toList
  | some port => (toString port).toList

def validateUrl (u : Unicode) (w : Web) (hop : Nat) (url : Text) : Validated :=
  match urlparse u url with
  | .error e => .raised (.url e)
  | .ok parsed =>
    if parsed.scheme ≠ http ∧ parsed.scheme ≠ https then
      .rejected ("Rejected: scheme '".toList ++ parsed.scheme ++
        "' not allowed (only http/https)".toList)
    else
      match parsed.hostname u with
      | none => .rejected "Rejected: missing hostname".toList
      | some hostname =>
        match parsed.port with
        | .error e => .raised (.url e)
        | .ok port =>
          if port ∉ allowedPorts then
            .rejected ("Rejected: port ".toList ++ portText port ++
              " not allowed (only 80 or 443)".toList)
          else resolveAndValidate hostname (w.lookup hop hostname)

/-! ## `_pinned_fetch` -/

/-- `_MAX_BYTES`. -/
def maxBytes : Nat := 1000000

/-- The chunks up to the one that reaches the cap. -/
def readChunks : Nat → List (List UInt8) → List UInt8
  | _, [] => []
  | total, chunk :: rest =>
    chunk ++ if maxBytes ≤ total + chunk.length then [] else readChunks (total + chunk.length) rest

def Response.isRedirect (r : Response) : Bool := 300 ≤ r.status && r.status ≤ 399

def Response.body (r : Response) : List UInt8 :=
  if r.isRedirect then []
  else if r.contentLength.any fun length => (maxBytes : Int) < length then []
  else readChunks 0 r.chunks

/-- `parsed.port or (443 if scheme == "https" else 80)`. -/
def portOf (parsed : ParseResult) : Option Nat → Nat
  | none | some 0 => if parsed.scheme = https then 443 else 80
  | some port => port

/-- The URL with the address in the place of the host. -/
def pinnedUrl (parsed : ParseResult) (port : Nat) (ip : Text) : Text :=
  parsed.scheme ++ "://".toList ++ (if ':' ∈ ip then '[' :: ip ++ [']'] else ip) ++
    ':' :: (toString port).toList ++ (if parsed.path.isEmpty then ['/'] else parsed.path) ++
    (if parsed.query.isEmpty then [] else '?' :: parsed.query)

/-- The port and the URL of the request. -/
def pinnedRequest (u : Unicode) (url : Text) (t : Target) : Except Failure (Nat × Text) :=
  match urlparse u url with
  | .error e => .error (.url e)
  | .ok parsed =>
    match parsed.port with
    | .error e => .error (.url e)
    | .ok port =>
      -- `hostname.encode("ascii")`
      if parsed.scheme = https ∧ isAscii t.hostname = false then .error .hostnameNotAscii
      else .ok (portOf parsed port, pinnedUrl parsed (portOf parsed port) t.ip)

/-- The connection, if one is made, and the response. -/
def pinnedFetch (u : Unicode) (w : Web) (hop : Nat) (url : Text) (t : Target) :
    List Connection × Except Failure Response :=
  match pinnedRequest u url t with
  | .error e => ([], .error e)
  | .ok (port, pinned) =>
    match w.send hop pinned with
    | .refused => ([], .error .request)
    | .failed => ([⟨⟨hop, t.hostname, t.ip, port⟩, t.checked⟩], .error .request)
    | .response r => ([⟨⟨hop, t.hostname, t.ip, port⟩, t.checked⟩], .ok r)

/-! ## `run_fetch_url` -/

/-- The URL that a redirect leads to. -/
def redirectUrl (u : Unicode) (url location : Text) : Except UrlError Text :=
  if isHttp location then .ok location
  else (urlparse u url).map fun p => p.scheme ++ "://".toList ++ p.netloc ++ location

inductive Fetched
  | result (text : Text)
  /-- `f"Error fetching {url}: {e}"` -/
  | error (e : Failure)
  /-- The first `_validate_url` is outside of the handlers. -/
  | raised (e : Failure)

/-- How a turn of the loop ends. -/
inductive HopEnd
  | done (f : Fetched)
  /-- `continue`, after a redirect that is accepted. -/
  | follow (location : Text) (t : Target) (r : Response)

/-- `_ALLOWED_CT`. -/
def allowedCt : List String := ["text/html", "text/plain", "application/xhtml+xml"]

/-- What is made of the last response. -/
def pageText (u : Unicode) (w : Web) (url current : Text) (r : Response) : Text :=
  if r.body.isEmpty then
    "Could not extract content from ".toList ++ url ++ " (empty or oversized response)".toList
  else
    let ct := u.lower (strip (before ';' r.contentType))
    if !ct.isEmpty && !allowedCt.any (·.toList == ct) then
      "Rejected: content type '".toList ++ ct ++
        "' not supported (expected HTML or plain text)".toList
    else
      let (title, text) := w.soup r.body
      if (strip text).isEmpty then "Could not extract text content from ".toList ++ current
      else
        (if title.isEmpty || title == current then "URL: ".toList ++ current ++ "\n\n".toList
          else "Title: ".toList ++ title ++ "\nURL: ".toList ++ current ++ "\n\n".toList)
          ++ text.take 8000

section

variable (u : Unicode) (w : Web) (url : Text)

/-- One turn of the loop, at `current`. -/
def fetchHop (hop : Nat) (current : Text) (t : Target) : List Connection × HopEnd :=
  match pinnedFetch u w hop current t with
  | (made, .error e) => (made, .done (.error e))
  | (made, .ok r) =>
    if r.isRedirect then
      match redirectUrl u current r.location with
      | .error e => (made, .done (.error (.url e)))
      | .ok location =>
        match validateUrl u w (hop + 1) location with
        | .rejected reason => (made, .done (.result ("Rejected redirect: ".toList ++ reason)))
        | .raised e => (made, .done (.error e))
        | .accepted t => (made, .follow location t r)
    else if 200 ≤ r.status ∧ r.status ≤ 299 then
      (made, .done (.result (pageText u w url current r)))
    else
      (made, .done (.result ("HTTP error fetching ".toList ++ url ++ ": ".toList ++
        (toString r.status).toList)))

/-- The loop from `current` on, with `n` more turns after this one. -/
def fetchHops : Nat → Nat → Text → Target → List Connection × Fetched
  | 0, hop, current, t =>
    match fetchHop u w url hop current t with
    | (made, .done f) => (made, f)
    | (made, .follow location _ r) => (made, .result (pageText u w url location r))
  | n + 1, hop, current, t =>
    match fetchHop u w url hop current t with
    | (made, .done f) => (made, f)
    | (made, .follow location t _) =>
      let (more, f) := fetchHops n (hop + 1) location t
      (made ++ more, f)

def runFetchUrl : List Connection × Fetched :=
  match validateUrl u w 0 url with
  | .rejected reason => ([], .result reason)
  | .raised e => ([], .raised e)
  | .accepted t => fetchHops u w url 4 0 url t

end

/-! ## `ingest_url` -/

/-- The connections of `ingest_url`, which answers 400 to another URL. -/
def ingestConnections (w : Web) (url : Text) : List Connection :=
  if isHttp (strip url) then (w.client (strip url)).map fun dial => ⟨dial, []⟩ else []

/-! ## What the checks are worth -/

theorem checkInfos_cons_none {raw : Text} (h : ipAddress raw = none) (rest : List Text) :
    checkInfos (raw :: rest) = checkInfos rest := by
  rw [checkInfos, h]

/-- An entry that can be read has been checked when no address is rejected. -/
theorem checkInfos_cons_some {raw : Text} {rest checked : List Text} {ip : IpAddress}
    (hip : ipAddress raw = some ip) (h : checkInfos (raw :: rest) = .ok checked) :
    isNonPublic ip = false ∧ ∃ more, checkInfos rest = .ok more ∧ checked = raw :: more := by
  rw [checkInfos, hip] at h
  dsimp only at h
  split at h
  next => exact absurd h (by simp)
  next hpublic =>
    split at h
    next => exact absurd h (by simp)
    next more hmore =>
      refine ⟨by simpa using hpublic, more, hmore, ?_⟩
      simpa using h.symm

/-- When no address is rejected, every entry that can be read is public and has
been checked. -/
theorem public_of_checkInfos {infos checked : List Text} (h : checkInfos infos = .ok checked)
    {raw : Text} (hraw : raw ∈ infos) {ip : IpAddress} (hip : ipAddress raw = some ip) :
    isNonPublic ip = false ∧ raw ∈ checked := by
  induction infos generalizing checked with
  | nil => exact absurd hraw (by simp)
  | cons first rest ih =>
    cases hfirst : ipAddress first with
    | none =>
      rw [checkInfos_cons_none hfirst] at h
      refine ih h ((List.mem_cons.mp hraw).resolve_left ?_)
      rintro rfl
      exact absurd (hip.symm.trans hfirst) (by simp)
    | some other =>
      obtain ⟨hpublic, more, hmore, rfl⟩ := checkInfos_cons_some hfirst h
      rcases List.mem_cons.mp hraw with rfl | hraw
      · obtain rfl : other = ip := Option.some.inj (hfirst.symm.trans hip)
        exact ⟨hpublic, List.mem_cons_self ..⟩
      · obtain ⟨hpublic', hchecked⟩ := ih hmore hraw
        exact ⟨hpublic', List.mem_cons_of_mem _ hchecked⟩

/-- A public address is routable unless it is a shared one. -/
theorem routable_iff_of_public {ip : IpAddress} (h : isNonPublic ip = false) :
    ip.Routable ↔ ip.isShared = false := by
  unfold isNonPublic at h
  simp only [Bool.or_eq_false_iff] at h
  obtain ⟨⟨⟨⟨⟨-, hprivate⟩, -⟩, hreserved⟩, -⟩, -⟩ := h
  exact IpAddress.routable_iff hreserved hprivate

theorem resolveAndValidate_accepted {hostname : Text} {l : Lookup} {t : Target}
    (h : resolveAndValidate hostname l = .accepted t) :
    t.hostname = hostname ∧ ∃ rest, l = .infos (t.ip :: rest) ∧
      checkInfos (t.ip :: rest) = .ok t.checked := by
  cases l with
  | gaierror message => exact absurd h (by simp [resolveAndValidate])
  | raised => exact absurd h (by simp [resolveAndValidate])
  | infos addresses =>
    unfold resolveAndValidate at h
    dsimp only at h
    split at h
    next => exact absurd h (by simp)
    next checked hchecked =>
      cases addresses with
      | nil => exact absurd h (by simp)
      | cons first rest =>
        obtain rfl : (⟨hostname, first, checked⟩ : Target) = t := by simpa using h
        exact ⟨rfl, rest, rfl, hchecked⟩

/-- What is accepted has an allowed port, and all of its addresses that can be
read have been checked. -/
theorem validateUrl_accepted {u : Unicode} {w : Web} {hop : Nat} {url : Text} {t : Target}
    (h : validateUrl u w hop url = .accepted t) :
    ∃ parsed port rest, urlparse u url = .ok parsed ∧ parsed.port = .ok port ∧
      port ∈ allowedPorts ∧ w.lookup hop t.hostname = .infos (t.ip :: rest) ∧
      checkInfos (t.ip :: rest) = .ok t.checked := by
  unfold validateUrl at h
  split at h
  next => exact absurd h (by simp)
  next parsed hparsed =>
    split at h
    next => exact absurd h (by simp)
    next =>
      split at h
      next => exact absurd h (by simp)
      next hostname _ =>
        split at h
        next => exact absurd h (by simp)
        next port hport =>
          split at h
          next => exact absurd h (by simp)
          next hallowed =>
            obtain ⟨rfl, rest, hlookup, hchecked⟩ := resolveAndValidate_accepted h
            exact ⟨parsed, port, rest, hparsed, hport, not_not.mp hallowed, hlookup, hchecked⟩

theorem portOf_allowed {parsed : ParseResult} {port : Option Nat} (h : port ∈ allowedPorts) :
    portOf parsed port = 80 ∨ portOf parsed port = 443 := by
  simp only [allowedPorts, List.mem_cons, List.not_mem_nil, or_false] at h
  rcases h with rfl | rfl | rfl
  · exact .inl rfl
  · exact .inr rfl
  · unfold portOf
    dsimp only
    split
    next => exact .inr rfl
    next => exact .inl rfl

theorem pinnedRequest_port {u : Unicode} {w : Web} {hop : Nat} {url pinned : Text} {t : Target}
    {port : Nat} (h : validateUrl u w hop url = .accepted t)
    (hrequest : pinnedRequest u url t = .ok (port, pinned)) : port = 80 ∨ port = 443 := by
  obtain ⟨parsed, allowed, -, hparsed, hport, hallowed, -, -⟩ := validateUrl_accepted h
  rw [pinnedRequest, hparsed] at hrequest
  dsimp only at hrequest
  rw [hport] at hrequest
  dsimp only at hrequest
  split at hrequest
  next => exact absurd hrequest (by simp)
  next =>
    obtain ⟨rfl, -⟩ : portOf parsed allowed = port ∧ _ := by simpa using hrequest
    exact portOf_allowed hallowed

/-! ## The guard -/

/-- The first entry is an address outside of 100.64.0.0/10. -/
def Lookup.FirstRoutable (l : Lookup) : Prop :=
  ∃ raw ∈ l.addresses.head?, ∃ ip, ipAddress raw = some ip ∧ ip.isShared = false

theorem guarded_iff {u : Unicode} {w : Web} {hop port : Nat} {url pinned : Text} {t : Target}
    (h : validateUrl u w hop url = .accepted t)
    (hrequest : pinnedRequest u url t = .ok (port, pinned)) :
    Guarded w ⟨⟨hop, t.hostname, t.ip, port⟩, t.checked⟩ ↔
      (w.lookup hop t.hostname).FirstRoutable := by
  obtain ⟨-, -, rest, -, -, -, hlookup, hchecked⟩ := validateUrl_accepted h
  unfold Guarded Lookup.FirstRoutable
  rw [hlookup]
  constructor
  · rintro ⟨-, -, ⟨ip, hip, hroutable⟩, -⟩
    obtain ⟨hpublic, -⟩ := public_of_checkInfos hchecked (List.mem_cons_self ..) hip
    exact ⟨t.ip, rfl, ip, hip, (routable_iff_of_public hpublic).mp hroutable⟩
  · rintro ⟨raw, hraw, ip, hip, hshared⟩
    obtain rfl : t.ip = raw := Option.some.inj hraw
    obtain ⟨hpublic, hmem⟩ := public_of_checkInfos hchecked (List.mem_cons_self ..) hip
    exact ⟨List.mem_cons_self .., hmem, ⟨ip, hip, (routable_iff_of_public hpublic).mpr hshared⟩,
      pinnedRequest_port h hrequest⟩

section

variable (u : Unicode) (w : Web)

/-- The request of a hop to `current`, if it is sent. -/
def Requests (hop : Nat) (current hostname : Text) (reply : Sent) : Prop :=
  ∃ t port pinned, validateUrl u w hop current = .accepted t ∧ t.hostname = hostname ∧
    pinnedRequest u current t = .ok (port, pinned) ∧ w.send hop pinned = reply ∧ reply ≠ .refused

/-- When a request is sent, the hostname resolves to a routable address first. -/
def HopRoutable (hop : Nat) (current : Text) : Prop :=
  ∀ hostname reply, Requests u w hop current hostname reply → (w.lookup hop hostname).FirstRoutable

/-- A hop is answered by a redirect. -/
def Redirects (hop : Nat) (current next : Text) : Prop :=
  ∃ hostname r, Requests u w hop current hostname (.response r) ∧ r.isRedirect = true ∧
    redirectUrl u current r.location = .ok next

/-- So it is for a hop and for `n` more along the redirects. -/
def HopsRoutable : Nat → Nat → Text → Prop
  | 0, hop, current => HopRoutable u w hop current
  | n + 1, hop, current =>
    HopRoutable u w hop current ∧
      ∀ next, Redirects u w hop current next → HopsRoutable n (hop + 1) next

variable {u w}

/-- The connection of a hop is guarded when its request is sent to a routable
address. -/
theorem pinnedFetch_guarded_iff {hop : Nat} {current : Text} {t : Target}
    (h : validateUrl u w hop current = .accepted t) :
    (∀ c ∈ (pinnedFetch u w hop current t).1, Guarded w c) ↔ HopRoutable u w hop current := by
  unfold HopRoutable
  constructor
  · rintro hguarded hostname reply ⟨t', port, pinned, ht', rfl, hrequest, rfl, hsent⟩
    obtain rfl : t = t' := by simpa using h.symm.trans ht'
    rw [← guarded_iff h hrequest]
    refine hguarded _ ?_
    unfold pinnedFetch
    rw [hrequest]
    cases hreply : w.send hop pinned with
    | refused => exact absurd hreply hsent
    | failed => simp [hreply]
    | response r => simp [hreply]
  · intro hroutable c hc
    unfold pinnedFetch at hc
    split at hc
    next => exact absurd hc (by simp)
    next port pinned hrequest =>
      split at hc
      next => exact absurd hc (by simp)
      next hreply =>
        obtain rfl := List.mem_singleton.mp hc
        rw [guarded_iff h hrequest]
        exact hroutable _ _ ⟨t, port, pinned, h, rfl, hrequest, hreply, by simp⟩
      next r hreply =>
        obtain rfl := List.mem_singleton.mp hc
        rw [guarded_iff h hrequest]
        exact hroutable _ _ ⟨t, port, pinned, h, rfl, hrequest, hreply, by simp⟩

theorem pinnedFetch_ok_iff {hop : Nat} {current : Text} {t : Target} {r : Response}
    (h : validateUrl u w hop current = .accepted t) :
    (pinnedFetch u w hop current t).2 = .ok r ↔
      Requests u w hop current t.hostname (.response r) := by
  constructor
  · intro hfetch
    unfold pinnedFetch at hfetch
    split at hfetch
    next => exact absurd hfetch (by simp)
    next port pinned hrequest =>
      split at hfetch
      next => exact absurd hfetch (by simp)
      next => exact absurd hfetch (by simp)
      next reply hreply =>
        obtain rfl : reply = r := by simpa using hfetch
        exact ⟨t, port, pinned, h, rfl, hrequest, hreply, by simp⟩
  · rintro ⟨t', port, pinned, ht', -, hrequest, hreply, -⟩
    obtain rfl : t = t' := by simpa using h.symm.trans ht'
    unfold pinnedFetch
    rw [hrequest]
    dsimp only
    rw [hreply]

theorem redirects_iff {hop : Nat} {current next : Text} {t : Target}
    (h : validateUrl u w hop current = .accepted t) :
    Redirects u w hop current next ↔
      ∃ r, (pinnedFetch u w hop current t).2 = .ok r ∧ r.isRedirect = true ∧
        redirectUrl u current r.location = .ok next := by
  constructor
  · rintro ⟨hostname, r, hrequests, hredirect, hnext⟩
    have hrequests' := hrequests
    obtain ⟨t', -, -, ht', rfl, -⟩ := hrequests'
    obtain rfl : t = t' := by simpa using h.symm.trans ht'
    exact ⟨r, (pinnedFetch_ok_iff h).mpr hrequests, hredirect, hnext⟩
  · rintro ⟨r, hfetch, hredirect, hnext⟩
    exact ⟨t.hostname, r, (pinnedFetch_ok_iff h).mp hfetch, hredirect, hnext⟩

theorem redirects_unique {hop : Nat} {current next next' : Text} {t : Target}
    (h : validateUrl u w hop current = .accepted t) (hnext : Redirects u w hop current next)
    (hnext' : Redirects u w hop current next') : next = next' := by
  obtain ⟨r, hr, -, hlocation⟩ := (redirects_iff h).mp hnext
  obtain ⟨r', hr', -, hlocation'⟩ := (redirects_iff h).mp hnext'
  obtain rfl : r = r' := by simpa using hr.symm.trans hr'
  simpa using hlocation.symm.trans hlocation'

/-- A hop that is not accepted sends nothing. -/
theorem hopsRoutable_of_not_accepted {hop : Nat} {current : Text}
    (h : ∀ t, validateUrl u w hop current ≠ .accepted t) (n : Nat) :
    HopsRoutable u w n hop current := by
  have hroutable : HopRoutable u w hop current := by
    rintro hostname reply ⟨t, -, -, ht, -⟩
    exact absurd ht (h t)
  cases n with
  | zero => exact hroutable
  | succ n =>
    refine ⟨hroutable, ?_⟩
    rintro next ⟨hostname, r, ⟨t, -, -, ht, -⟩, -⟩
    exact absurd ht (h t)

theorem fetchHop_connections (url : Text) (hop : Nat) (current : Text) (t : Target) :
    (fetchHop u w url hop current t).1 = (pinnedFetch u w hop current t).1 := by
  unfold fetchHop
  split
  next hfetch => rw [hfetch]
  next hfetch =>
    rw [hfetch]
    split
    next =>
      split
      next => rfl
      next => split <;> rfl
    next => split <;> rfl

/-- The loop goes on to the URL of a redirect that is accepted. -/
theorem fetchHop_follow {url : Text} {hop : Nat} {current next : Text} {t t' : Target}
    {r : Response} (h : validateUrl u w hop current = .accepted t)
    (hfollow : (fetchHop u w url hop current t).2 = .follow next t' r) :
    Redirects u w hop current next ∧ validateUrl u w (hop + 1) next = .accepted t' := by
  unfold fetchHop at hfollow
  split at hfollow
  next => exact absurd hfollow (by simp)
  next made reply hfetch =>
    split at hfollow
    next hredirect =>
      split at hfollow
      next => exact absurd hfollow (by simp)
      next location hlocation =>
        split at hfollow
        next => exact absurd hfollow (by simp)
        next => exact absurd hfollow (by simp)
        next accepted haccepted =>
          obtain ⟨rfl, rfl, -⟩ : location = next ∧ accepted = t' ∧ reply = r := by
            simpa using hfollow
          exact ⟨(redirects_iff h).mpr ⟨reply, congrArg Prod.snd hfetch, hredirect, hlocation⟩,
            haccepted⟩
    next => split at hfollow <;> exact absurd hfollow (by simp)

theorem follow_of_redirects (url : Text) {hop : Nat} {current next : Text} {t t' : Target}
    (h : validateUrl u w hop current = .accepted t) (hredirects : Redirects u w hop current next)
    (haccepted : validateUrl u w (hop + 1) next = .accepted t') :
    ∃ r, (fetchHop u w url hop current t).2 = .follow next t' r := by
  obtain ⟨r, hr, hredirect, hlocation⟩ := (redirects_iff h).mp hredirects
  refine ⟨r, ?_⟩
  unfold fetchHop
  split
  next hfetch =>
    rw [hfetch] at hr
    exact absurd hr (by simp)
  next reply hfetch =>
    rw [hfetch] at hr
    obtain rfl : reply = r := by simpa using hr
    rw [if_pos hredirect, hlocation]
    dsimp only
    rw [haccepted]

theorem fetchHops_guarded_iff {url : Text} {n hop : Nat} {current : Text} {t : Target}
    (h : validateUrl u w hop current = .accepted t) :
    (∀ c ∈ (fetchHops u w url n hop current t).1, Guarded w c) ↔ HopsRoutable u w n hop current := by
  induction n generalizing hop current t with
  | zero =>
    rw [HopsRoutable, ← pinnedFetch_guarded_iff h, ← fetchHop_connections url, fetchHops]
    split
    next hfetch => rw [hfetch]
    next hfetch => rw [hfetch]
  | succ n ih =>
    rw [HopsRoutable, ← pinnedFetch_guarded_iff h, ← fetchHop_connections url, fetchHops]
    split
    next made f hfetch =>
      rw [hfetch]
      refine (and_iff_left fun next hnext => ?_).symm
      refine hopsRoutable_of_not_accepted (fun t' ht' => ?_) n
      obtain ⟨r, hfollow⟩ := follow_of_redirects url h hnext ht'
      rw [hfetch] at hfollow
      exact absurd hfollow (by simp)
    next made location t' r hfetch =>
      obtain ⟨hredirects, ht'⟩ := fetchHop_follow h (congrArg Prod.snd hfetch)
      rw [hfetch]
      show (∀ c ∈ made ++ _, Guarded w c) ↔ _
      rw [List.forall_mem_append, ih ht']
      refine and_congr_right fun _ => ?_
      constructor
      · intro hroutable next hnext
        rwa [redirects_unique h hnext hredirects]
      · exact fun hrest => hrest location hredirects
end

theorem ingest_guarded_iff (w : Web) (url : Text) :
    (∀ c ∈ ingestConnections w url, Guarded w c) ↔
      (isHttp (strip url) = true → w.client (strip url) = []) := by
  unfold ingestConnections
  split
  next hhttp =>
    constructor
    · intro hguarded _
      refine List.eq_nil_iff_forall_not_mem.mpr fun dial hdial => ?_
      obtain ⟨-, hchecked, -⟩ := hguarded _ (List.mem_map_of_mem hdial)
      exact absurd hchecked (by simp)
    · intro hnone
      rw [hnone hhttp]
      simp
  next hother =>
    exact ⟨fun _ hhttp => absurd hhttp hother, fun _ => by simp⟩

/-- `fetch_url` connects to public addresses exactly when every name that it
sends a request for resolves to an address outside of 100.64.0.0/10 first, and
`ingest_url` exactly when it does not connect at all. -/
theorem connections_guarded_iff (u : Unicode) (w : Web) (url : Text) :
    ((∀ c ∈ (runFetchUrl u w url).1, Guarded w c) ↔ HopsRoutable u w 4 0 url) ∧
      ((∀ c ∈ ingestConnections w url, Guarded w c) ↔
        (isHttp (strip url) = true → w.client (strip url) = [])) := by
  refine ⟨?_, ingest_guarded_iff w url⟩
  unfold runFetchUrl
  split
  next hrejected =>
    have hnone : ∀ t, validateUrl u w 0 url ≠ .accepted t := by simp [hrejected]
    simpa using hopsRoutable_of_not_accepted hnone 4
  next hraised =>
    have hnone : ∀ t, validateUrl u w 0 url ≠ .accepted t := by simp [hraised]
    simpa using hopsRoutable_of_not_accepted hnone 4
  next t ht => exact fetchHops_guarded_iff ht

/-- Texts of ASCII. -/
def asciiUnicode : Unicode := ⟨List.map Char.toLower, id⟩

/-- Every name resolves to a shared address, where a server answers. -/
def sharedWeb : Web where
  lookup _ _ := .infos ["100.64.0.1".toList]
  send _ _ := .response { status := 200 }
  client _ := [⟨0, ['a'], "100.64.0.1".toList, 80⟩]
  soup _ := ([], [])

theorem shared_not_guarded :
    ¬ (∀ c ∈ (runFetchUrl asciiUnicode sharedWeb "http://a/".toList).1, Guarded sharedWeb c) ∧
      ¬ (∀ c ∈ ingestConnections sharedWeb "http://a/".toList, Guarded sharedWeb c) := by
  constructor
  · intro hguarded
    obtain ⟨-, -, ⟨ip, hip, hroutable⟩, -⟩ := hguarded
      ⟨⟨0, ['a'], "100.64.0.1".toList, 80⟩, ["100.64.0.1".toList]⟩ (by decide)
    have hshared : ipAddress "100.64.0.1".toList = some (.v4 0x64400001) := by decide
    obtain rfl := Option.some.inj (hshared.symm.trans hip)
    exact absurd (hroutable _ (List.mem_cons_self ..)) (by decide)
  · intro hguarded
    obtain ⟨-, hchecked, -⟩ := hguarded ⟨⟨0, ['a'], "100.64.0.1".toList, 80⟩, []⟩
      (by decide)
    exact absurd hchecked (by simp)

end Eidetic.Tools
