import Eidetic.Py.Text

/-!
# `ipaddress`

`ip_address`, the properties of an address with the special ranges of
Python 3.11, and the IPv4 addresses that an IPv6 address stands for. An address
that is neither private nor reserved stands for none (`embedded_eq_nil`).

Networks are ranges of numbers, so membership is two inequalities
(`Network.contains_iff`), and the tables are lists of them, in the order of the
source. An address is read from text as the library reads it, without leading
zeros in an IPv4 part and with one `::` at most in an IPv6 address.
-/

namespace Eidetic.Py

/-- An `IPv4Address` or an `IPv6Address`, the latter without its scope. -/
inductive IpAddress
  | v4 (ip : Fin (2 ^ 32))
  | v6 (ip : Fin (2 ^ 128))
deriving DecidableEq

/-! ## Networks -/

/-- A network: its first address, and how many addresses it has. -/
structure Network where
  first : Nat
  size : Nat

def Network.contains (net : Network) (ip : Nat) : Bool :=
  net.first ≤ ip && ip < net.first + net.size

/-- `a.b.c.d/length`. -/
def v4Network (a b c d length : Nat) : Network :=
  ⟨((a * 256 + b) * 256 + c) * 256 + d, 2 ^ (32 - length)⟩

/-- A network by the hextets before its `::`. -/
def v6Network (hextets : List Nat) (length : Nat) : Network :=
  ⟨hextets.foldl (fun n h => n * 65536 + h) 0 * 65536 ^ (8 - hextets.length), 2 ^ (128 - length)⟩

def inAny (nets : List Network) (ip : Nat) : Bool := nets.any fun net => net.contains ip

/-- `_IPv4Constants._private_networks`. -/
def v4PrivateNetworks : List Network :=
  [v4Network 0 0 0 0 8, v4Network 10 0 0 0 8, v4Network 127 0 0 0 8, v4Network 169 254 0 0 16,
    v4Network 172 16 0 0 12, v4Network 192 0 0 0 24, v4Network 192 0 0 170 31,
    v4Network 192 0 2 0 24, v4Network 192 168 0 0 16, v4Network 198 18 0 0 15,
    v4Network 198 51 100 0 24, v4Network 203 0 113 0 24, v4Network 240 0 0 0 4,
    v4Network 255 255 255 255 32]

def v4PrivateExceptions : List Network := [v4Network 192 0 0 9 32, v4Network 192 0 0 10 32]

/-- `_IPv4Constants._public_network`: the shared address space. -/
def sharedNetwork : Network := v4Network 100 64 0 0 10

/-- `_IPv6Constants._private_networks`. -/
def v6PrivateNetworks : List Network :=
  [v6Network [0, 0, 0, 0, 0, 0, 0, 1] 128, v6Network [] 128, v6Network [0, 0, 0, 0, 0, 0xffff] 96,
    v6Network [0x64, 0xff9b, 1] 48, v6Network [0x100] 64, v6Network [0x2001] 23,
    v6Network [0x2001, 0xdb8] 32, v6Network [0x2002] 16, v6Network [0xfc00] 7,
    v6Network [0xfe80] 10]

def v6PrivateExceptions : List Network :=
  [v6Network [0x2001, 1, 0, 0, 0, 0, 0, 1] 128, v6Network [0x2001, 1, 0, 0, 0, 0, 0, 2] 128,
    v6Network [0x2001, 3] 32, v6Network [0x2001, 4, 0x112] 48, v6Network [0x2001, 0x20] 28,
    v6Network [0x2001, 0x30] 28]

/-- `_IPv6Constants._reserved_networks`. -/
def v6ReservedNetworks : List Network :=
  [v6Network [] 8, v6Network [0x100] 8, v6Network [0x200] 7, v6Network [0x400] 6,
    v6Network [0x800] 5, v6Network [0x1000] 4, v6Network [0x4000] 3, v6Network [0x6000] 3,
    v6Network [0x8000] 3, v6Network [0xa000] 3, v6Network [0xc000] 3, v6Network [0xe000] 4,
    v6Network [0xf000] 5, v6Network [0xf800] 6, v6Network [0xfe00] 9]

/-! ## The properties of an address -/

/-- The IPv4 address in the last 32 bits. -/
def lowV4 (n : Nat) : IpAddress := .v4 ⟨n % 2 ^ 32, Nat.mod_lt n (by decide)⟩

def v4IsPrivate (ip : Nat) : Bool :=
  inAny v4PrivateNetworks ip && !inAny v4PrivateExceptions ip

namespace IpAddress

def isLoopback : IpAddress → Bool
  | v4 ip => (v4Network 127 0 0 0 8).contains ip
  | v6 ip => ip.val == 1

def isPrivate : IpAddress → Bool
  | v4 ip => v4IsPrivate ip
  | v6 ip =>
    -- `ipv4_mapped`
    if ip.val / 2 ^ 32 = 0xffff then v4IsPrivate (ip % 2 ^ 32)
    else inAny v6PrivateNetworks ip && !inAny v6PrivateExceptions ip

def isLinkLocal : IpAddress → Bool
  | v4 ip => (v4Network 169 254 0 0 16).contains ip
  | v6 ip => (v6Network [0xfe80] 10).contains ip

def isReserved : IpAddress → Bool
  | v4 ip => (v4Network 240 0 0 0 4).contains ip
  | v6 ip => inAny v6ReservedNetworks ip

def isMulticast : IpAddress → Bool
  | v4 ip => (v4Network 224 0 0 0 4).contains ip
  | v6 ip => (v6Network [0xff00] 8).contains ip

def isUnspecified : IpAddress → Bool
  | v4 ip => ip.val == 0
  | v6 ip => ip.val == 0

/-- In 100.64.0.0/10. -/
def isShared : IpAddress → Bool
  | v4 ip => sharedNetwork.contains ip
  | v6 _ => false

def isGlobal (ip : IpAddress) : Bool := !ip.isShared && !ip.isPrivate

/-- The IPv4 addresses that a mapped, translated (64:ff9b::/96), 6to4 or Teredo
address stands for. -/
def embedded : IpAddress → List IpAddress
  | v4 _ => []
  | v6 ip =>
    (if ip.val / 2 ^ 32 = 0xffff then [lowV4 ip] else []) ++
      (if ip.val / 2 ^ 32 = 0x64ff9b * 2 ^ 64 then [lowV4 ip] else []) ++
      (if ip.val / 2 ^ 112 = 0x2002 then [lowV4 (ip / 2 ^ 80)] else []) ++
      (if ip.val / 2 ^ 96 = 0x20010000 then
        [lowV4 (ip / 2 ^ 64), lowV4 (2 ^ 32 - 1 - ip.val % 2 ^ 32)] else [])

/-- Globally routable, and so is every address it stands for. -/
def Routable (ip : IpAddress) : Prop := ∀ x ∈ ip :: ip.embedded, x.isGlobal = true

end IpAddress

theorem Network.contains_iff {net : Network} {ip : Nat} :
    net.contains ip = true ↔ net.first ≤ ip ∧ ip < net.first + net.size := by
  simp [Network.contains]

theorem inAny_of_mem {nets : List Network} {net : Network} {ip : Nat} (hnet : net ∈ nets)
    (h : net.contains ip = true) : inAny nets ip = true :=
  List.any_eq_true.mpr ⟨net, hnet, h⟩

namespace IpAddress

/-- What is not reserved is not below `100::`. -/
theorem le_of_not_reserved {ip : Fin (2 ^ 128)} (h : (v6 ip).isReserved = false) :
    2 ^ 120 ≤ ip.val := by
  refine Nat.le_of_not_lt fun hlt => ?_
  have hnet : v6Network [] 8 ∈ v6ReservedNetworks := by simp [v6ReservedNetworks]
  have hin : inAny v6ReservedNetworks ip = true := by
    refine inAny_of_mem hnet ?_
    rw [Network.contains_iff]
    simp only [v6Network, List.foldl_nil]
    omega
  exact Bool.false_ne_true (h.symm.trans hin)

/-- A part of a private network that is not private is an exception. -/
theorem inAny_exceptions {ip : Fin (2 ^ 128)} {net : Network} (h : (v6 ip).isPrivate = false)
    (hmapped : ip.val / 2 ^ 32 ≠ 0xffff) (hnet : net ∈ v6PrivateNetworks)
    (hin : net.contains ip = true) : inAny v6PrivateExceptions ip = true := by
  rw [isPrivate, if_neg hmapped, inAny_of_mem hnet hin] at h
  simpa using h

/-- The exceptions are in 2001::/23, outside of Teredo. -/
theorem bounds_of_exceptions {ip : Nat} (h : inAny v6PrivateExceptions ip = true) :
    0x20010001 * 2 ^ 96 ≤ ip ∧ ip < 0x20010040 * 2 ^ 96 := by
  unfold inAny at h
  obtain ⟨net, hnet, hin⟩ := List.any_eq_true.mp h
  rw [Network.contains_iff] at hin
  simp only [v6PrivateExceptions, v6Network, List.mem_cons, List.not_mem_nil, or_false] at hnet
  rcases hnet with rfl | rfl | rfl | rfl | rfl | rfl <;>
  · simp only [List.foldl_cons, List.foldl_nil, List.length_cons, List.length_nil] at hin
    omega

theorem embedded_eq_nil {ip : IpAddress} (hreserved : ip.isReserved = false)
    (hprivate : ip.isPrivate = false) : ip.embedded = [] := by
  cases ip with
  | v4 ip => rfl
  | v6 ip =>
    have hlow := le_of_not_reserved hreserved
    have hmapped : ip.val / 2 ^ 32 ≠ 0xffff := by omega
    have htranslated : ip.val / 2 ^ 32 ≠ 0x64ff9b * 2 ^ 64 := by omega
    have hsixtofour : ip.val / 2 ^ 112 ≠ 0x2002 := by
      intro heq
      have hin : (v6Network [0x2002] 16).contains ip = true := by
        rw [Network.contains_iff]
        simp only [v6Network, List.foldl_cons, List.foldl_nil, List.length_cons, List.length_nil]
        omega
      have hbounds := bounds_of_exceptions
        (inAny_exceptions hprivate hmapped (by simp [v6PrivateNetworks]) hin)
      omega
    have hteredo : ip.val / 2 ^ 96 ≠ 0x20010000 := by
      intro heq
      have hin : (v6Network [0x2001] 23).contains ip = true := by
        rw [Network.contains_iff]
        simp only [v6Network, List.foldl_cons, List.foldl_nil, List.length_cons, List.length_nil]
        omega
      have hbounds := bounds_of_exceptions
        (inAny_exceptions hprivate hmapped (by simp [v6PrivateNetworks]) hin)
      omega
    rw [embedded, if_neg hmapped, if_neg htranslated, if_neg hsixtofour, if_neg hteredo]
    rfl

/-- Neither private, reserved nor shared. -/
theorem routable_iff {ip : IpAddress} (hreserved : ip.isReserved = false)
    (hprivate : ip.isPrivate = false) : ip.Routable ↔ ip.isShared = false := by
  unfold Routable
  rw [embedded_eq_nil hreserved hprivate, List.forall_mem_singleton, isGlobal, hprivate]
  simp

end IpAddress

/-! ## Reading an address -/

/-- The value of a digit, up to `f`. -/
def digitValue (c : Char) : Nat :=
  if c.isDigit then c.toNat - 48 else if 'a' ≤ c then c.toNat - 87 else c.toNat - 55

/-- `int(s, base)`, for a text of digits. -/
def numeral (base : Nat) (s : Text) : Nat := s.foldl (fun n c => n * base + digitValue c) 0

def isHexDigit (c : Char) : Bool :=
  c.isDigit || ('a' ≤ c && c ≤ 'f') || ('A' ≤ c && c ≤ 'F')

/-- `_parse_octet`. -/
def parseOctet (s : Text) : Option (Fin 256) :=
  if s.isEmpty || !s.all Char.isDigit || 3 < s.length || (s ≠ ['0'] && s.head? == some '0') then
    none
  else if h : numeral 10 s < 256 then some ⟨numeral 10 s, h⟩
  else none

/-- `IPv4Address(s)`. -/
def ipv4Address (s : Text) : Option (Fin (2 ^ 32)) :=
  if '/' ∈ s then none
  else
    match (s.splitOn '.').mapM parseOctet with
    | some [a, b, c, d] => some ⟨((a.val * 256 + b) * 256 + c) * 256 + d, by omega⟩
    | _ => none

/-- `_parse_hextet`. -/
def parseHextet (s : Text) : Option Nat :=
  if s.isEmpty || !s.all isHexDigit || 4 < s.length then none else some (numeral 16 s)

/-- An IPv4-style suffix is written as two hextets. -/
def hextetParts (parts : List Text) : Option (List Text) :=
  if '.' ∈ parts.getLastD [] then
    (ipv4Address (parts.getLastD [])).map fun ip =>
      parts.dropLast ++ [Nat.toDigits 16 (ip.val / 65536), Nat.toDigits 16 (ip.val % 65536)]
  else some parts

/-- The hextets before or after `::`; that of an endpoint may be empty. -/
def sideOf (parts : List Text) (endpoint : Option Text) : Option (List Nat) :=
  if endpoint = some [] then (if parts.length = 1 then some [] else none)
  else parts.mapM parseHextet

/-- The hextets of the parts between the colons. -/
def hextetsOf (parts : List Text) : Option (List Nat) :=
  let inner := parts.tail.dropLast
  match inner.countP (·.isEmpty) with
  | 0 => if parts.length = 8 then parts.mapM parseHextet else none
  | 1 => do
    let skip := inner.findIdx (·.isEmpty) + 1
    let hi ← sideOf (parts.take skip) parts.head?
    let lo ← sideOf (parts.drop (skip + 1)) parts.getLast?
    if hi.length + lo.length < 8 then
      some (hi ++ List.replicate (8 - (hi.length + lo.length)) 0 ++ lo)
    else none
  | _ + 2 => none

/-- `_ip_int_from_string` of an IPv6 address; eight hextets fit. -/
def ipv6Value (s : Text) : Option (Fin (2 ^ 128)) := do
  let parts := s.splitOn ':'
  if parts.length < 3 then none
  else
    let parts ← hextetParts parts
    if 9 < parts.length then none
    else
      let hextets ← hextetsOf parts
      some (Fin.ofNat (2 ^ 128) (hextets.foldl (fun n h => n * 65536 + h) 0))

/-- `IPv6Address(s)`. -/
def ipv6Address (s : Text) : Option (Fin (2 ^ 128)) :=
  if '/' ∈ s then none
  else
    match s.dropWhile (· ≠ '%') with
    | [] => ipv6Value s
    | _ :: scope =>
      if scope.isEmpty || '%' ∈ scope then none else ipv6Value (s.takeWhile (· ≠ '%'))

/-- `ip_address(s)`, `none` for a `ValueError`. -/
def ipAddress (s : Text) : Option IpAddress :=
  ((ipv4Address s).map .v4).or ((ipv6Address s).map .v6)

example : ipAddress "100.64.0.1".toList = some (.v4 0x64400001) := by decide

end Eidetic.Py
