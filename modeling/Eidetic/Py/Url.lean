import Eidetic.Py.IpAddress

/-!
# `urllib.parse`

`urlparse` of Python 3.11, and the properties of its result that read the host
out of the netloc.
-/

namespace Eidetic.Py

/-- `str.lower` and `unicodedata.normalize("NFKC", _)`. -/
structure Unicode where
  lower : Text → Text
  nfkc : Text → Text

/-- The `ValueError`s. -/
inductive UrlError
  | invalidIpv6Url
  | invalidIpvFuture
  | notAnAddress
  | ipv4InBrackets
  | normalized
  | portNotInteger
  | portTooLong
  | portOutOfRange
deriving DecidableEq

/-- What is before the first `c`, and what is after it. -/
def before (c : Char) (s : Text) : Text := s.takeWhile (· ≠ c)
def after (c : Char) (s : Text) : Text := (s.dropWhile (· ≠ c)).drop 1

/-- What is after the last `c`, if there is one. -/
def afterLast (c : Char) (s : Text) : Text := (s.reverse.takeWhile (· ≠ c)).reverse

def isAscii (s : Text) : Bool := s.all fun c => c.toNat < 128

/-- `url.startswith(("http://", "https://"))`. -/
def isHttp (url : Text) : Bool :=
  startsWith url "http://".toList || startsWith url "https://".toList

structure ParseResult where
  scheme : Text
  netloc : Text
  path : Text
  params : Text
  query : Text
  fragment : Text

/-! ## Parsing -/

/-- Without the leading `_WHATWG_C0_CONTROL_OR_SPACE` and the
`_UNSAFE_URL_BYTES_TO_REMOVE`. -/
def cleaned (url : Text) : Text :=
  (url.dropWhile fun c => c.toNat ≤ 0x20).filter fun c => c ≠ '\t' ∧ c ≠ '\r' ∧ c ≠ '\n'

def isSchemeChar (c : Char) : Bool := c.isAlphanum || c = '+' || c = '-' || c = '.'

/-- The scheme, if there is one, and the rest. -/
def splitScheme (url : Text) : Text × Text :=
  let name := before ':' url
  if ':' ∈ url ∧ name.head?.any Char.isAlpha ∧ name.all isSchemeChar then
    (name.map Char.toLower, after ':' url)
  else ([], url)

/-- `_splitnetloc`, after `//`. -/
def splitNetloc (url : Text) : Text × Text := url.span fun c => c ≠ '/' ∧ c ≠ '?' ∧ c ≠ '#'

/-- `v[a-fA-F0-9]+\..+`, after the `v`. -/
def isIpvFuture (s : Text) : Bool :=
  !(s.takeWhile isHexDigit).isEmpty &&
    match s.dropWhile isHexDigit with
    | '.' :: rest => !rest.isEmpty
    | _ => false

/-- `_check_bracketed_host`. -/
def checkBracketedHost (host : Text) : Except UrlError Unit :=
  match host with
  | 'v' :: rest => if isIpvFuture rest then .ok () else .error .invalidIpvFuture
  | host =>
    match ipAddress host with
    | none => .error .notAnAddress
    | some (.v4 _) => .error .ipv4InBrackets
    | some (.v6 _) => .ok ()

/-- The checks of the brackets in a netloc. -/
def checkBrackets (netloc : Text) : Except UrlError Unit :=
  if '[' ∈ netloc ∧ ']' ∈ netloc then checkBracketedHost (before ']' (after '[' netloc))
  else if '[' ∈ netloc ∨ ']' ∈ netloc then .error .invalidIpv6Url
  else .ok ()

/-- `_checknetloc`. -/
def checkNetloc (u : Unicode) (netloc : Text) : Except UrlError Unit :=
  let n := netloc.filter fun c => c ≠ '@' ∧ c ≠ ':' ∧ c ≠ '#' ∧ c ≠ '?'
  if isAscii netloc ∨ u.nfkc n = n then .ok ()
  else if (u.nfkc n).any fun c => c = '/' || c = '?' || c = '#' || c = '@' || c = ':' then
    .error .normalized
  else .ok ()

/-- `uses_params`. -/
def usesParams : List String :=
  ["", "ftp", "hdl", "prospero", "http", "imap", "https", "shttp", "rtsp", "rtsps", "rtspu", "sip",
    "sips", "mms", "sftp", "tel"]

/-- `_splitparams`: the parameters follow the last segment of the path. -/
def splitParams (url : Text) : Text × Text :=
  let segment := afterLast '/' url
  if ';' ∈ segment then
    (url.take (url.length - segment.length) ++ before ';' segment, after ';' segment)
  else (url, [])

/-- `urlparse(url)`. -/
def urlparse (u : Unicode) (url : Text) : Except UrlError ParseResult := do
  let (scheme, rest) := splitScheme (cleaned url)
  let (netloc, rest) := if startsWith rest ['/', '/'] then splitNetloc (rest.drop 2) else ([], rest)
  checkBrackets netloc
  checkNetloc u netloc
  let path := before '?' (before '#' rest)
  let (path, params) :=
    if usesParams.any (·.toList == scheme) then splitParams path else (path, [])
  return {
    scheme, netloc, path, params
    query := after '?' (before '#' rest)
    fragment := after '#' rest }

/-! ## The host and the port -/

/-- `_hostinfo`. -/
def hostinfo (netloc : Text) : Text × Text :=
  let info := afterLast '@' netloc
  if '[' ∈ info then
    let bracketed := after '[' info
    (before ']' bracketed, after ':' (after ']' bracketed))
  else (before ':' info, after ':' info)

/-- The scope of an IPv6 address is not lowercased. -/
def ParseResult.hostname (u : Unicode) (r : ParseResult) : Option Text :=
  let name := (hostinfo r.netloc).1
  if name.isEmpty then none else some (u.lower (before '%' name) ++ name.dropWhile (· ≠ '%'))

def ParseResult.port (r : ParseResult) : Except UrlError (Option Nat) :=
  let port := (hostinfo r.netloc).2
  if port.isEmpty then .ok none
  else if !port.all Char.isDigit then .error .portNotInteger
  -- `sys.int_info.default_max_str_digits`
  else if 4300 < port.length then .error .portTooLong
  else if 65535 < numeral 10 port then .error .portOutOfRange
  else .ok (some (numeral 10 port))

end Eidetic.Py
