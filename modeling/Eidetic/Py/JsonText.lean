import Eidetic.Lib.Dict
import Eidetic.Lib.Reader
import Eidetic.Py.Json

/-!
# `json.dumps` and `json.loads`

The text of a JSON value, with the escapes of `ensure_ascii`, and the value of
a text. Numbers are written and read by `Numerals`. The backend reads with
`json.loads`, the client with `JSON.parse`, which are the two dialects of
`loads`: the former takes `NaN`, `Infinity` and `-Infinity` for numbers, and
raises for an integer of more than 4300 digits. Both accept an escaped half of a
surrogate pair, which is no `Char`: one of the last 2048 characters, which are
for private use, stands for it. Neither has a limit on nesting here, where
`json.loads` raises a `RecursionError` some thousand levels down.

The values of a dict are read in order, a later one for the same key in the
place of the earlier one (`dictOf`). A text is read by structural recursion on a
number that bounds its length, which is never used up.

`loads_dumps` says what is read back in either dialect: every dict once under
each of its keys, and every number as its numeral reads. It rests on one lemma
for each kind of value (`readChar_escape`, `readNumber_print`,
`readMember_dumps`) and on the readers of lists. A text that is read as an
object ends with its brace (`loads_obj`), since every reader leaves the end of
the text it is given (`readValue_consumes`).
-/

namespace Eidetic.Py

open Eidetic.Lib

/-! ## Numbers -/

def isDigit (c : Char) : Bool := '0' ≤ c && c ≤ '9'

/-- The characters a number is made of. -/
def isNumChar (c : Char) : Bool := isDigit c || c == '-' || c == '+' || c == '.' || c == 'e' || c == 'E'

/-- The exponent of a number, if it has one. -/
def isExponent : Text → Bool
  | [] => true
  | c :: rest =>
    (c == 'e' || c == 'E') &&
      (match rest with
        | '+' :: digits => !digits.isEmpty && digits.all isDigit
        | '-' :: digits => !digits.isEmpty && digits.all isDigit
        | digits => !digits.isEmpty && digits.all isDigit)

/-- The fraction of a number, if it has one, and the exponent. -/
def isFraction : Text → Bool
  | '.' :: c :: rest => isDigit c && isExponent (rest.dropWhile isDigit)
  | rest => isExponent rest

/-- The number without its sign. -/
def isMagnitude : Text → Bool
  | [] => false
  | c :: rest =>
    if c = '0' then isFraction rest else isDigit c && isFraction (rest.dropWhile isDigit)

/-- A JSON number. -/
def isNumber (t : Text) : Bool :=
  t.all isNumChar && (match t with | '-' :: rest => isMagnitude rest | rest => isMagnitude rest)

/-- An integer that `int` and `int.__repr__` do not convert: it has more than
4300 digits. -/
def isTooLong (t : Text) : Bool :=
  t.all (fun c => isDigit c || c == '-') && decide (4300 < (t.filter isDigit).length)

/-- How numbers are written, as `int.__repr__` and `float.__repr__` do, and
what a number's text is read as. The constants that are no numbers, such as
`NaN`, are read as values of their own. -/
structure Numerals where
  print : Rat → Text
  value : Text → Rat
  isNumber_print : ∀ q, isNumber (print q) = true
  isTooLong_print : ∀ q, isTooLong (print q) = false

theorem Numerals.all_print (n : Numerals) (q : Rat) : ∀ c ∈ n.print q, isNumChar c = true := by
  have h := n.isNumber_print q
  unfold isNumber at h
  rw [Bool.and_eq_true, List.all_eq_true] at h
  exact h.1

theorem Numerals.print_ne_nil (n : Numerals) (q : Rat) : n.print q ≠ [] := by
  intro h
  have hn := n.isNumber_print q
  rw [h] at hn
  exact absurd hn (by decide)

/-! ## Writing -/

def hexDigit (d : Nat) : Char := "0123456789abcdef".toList.getD d '0'

/-- `'\\u{0:04x}'.format(n)`. -/
def hexEscape (n : Nat) : Text :=
  ['\\', 'u', hexDigit (n / 4096 % 16), hexDigit (n / 256 % 16), hexDigit (n / 16 % 16),
    hexDigit (n % 16)]

/-- The characters with an escape of their own. -/
def shortEscapes : List (Char × Char) :=
  [('"', '"'), ('\\', '\\'), ('\n', 'n'), ('\r', 'r'), ('\t', 't'), (Char.ofNat 0xc, 'f'),
    (Char.ofNat 0x8, 'b')]

/-- A character as `ensure_ascii` writes it. -/
def escape (c : Char) : Text :=
  match shortEscapes.lookup c with
  | some x => ['\\', x]
  | none =>
    if 0x20 ≤ c.toNat ∧ c.toNat ≤ 0x7e then [c]
    else if c.toNat < 0x10000 then hexEscape c.toNat
    -- a surrogate pair
    else hexEscape (0xd800 + (c.toNat - 0x10000) / 1024)
      ++ hexEscape (0xdc00 + (c.toNat - 0x10000) % 1024)

def dumpsString (s : Text) : Text := '"' :: (s.flatMap escape ++ ['"'])

mutual

/-- `json.dumps(value)`. -/
def dumps (n : Numerals) : Json → Text
  | .null => "null".toList
  | .bool b => if b then "true".toList else "false".toList
  | .num q => n.print q
  | .str s => dumpsString s
  | .arr xs => '[' :: (", ".toList.intercalate (dumpsItems n xs) ++ [']'])
  | .obj items => '{' :: (", ".toList.intercalate (dumpsMembers n items) ++ ['}'])

def dumpsItems (n : Numerals) : List Json → List Text
  | [] => []
  | x :: xs => dumps n x :: dumpsItems n xs

def dumpsMembers (n : Numerals) : List (Text × Json) → List Text
  | [] => []
  | (k, v) :: rest => (dumpsString k ++ (": ".toList ++ dumps n v)) :: dumpsMembers n rest

end

mutual

/-- The value with the items of every dict in the order of their keys. -/
def sortKeys : Json → Json
  | .null => .null
  | .bool b => .bool b
  | .num q => .num q
  | .str s => .str s
  | .arr xs => .arr (sortKeysItems xs)
  | .obj items => .obj ((sortKeysMembers items).insertionSort fun a b => a.1 ≤ b.1)

def sortKeysItems : List Json → List Json
  | [] => []
  | x :: xs => sortKeys x :: sortKeysItems xs

def sortKeysMembers : List (Text × Json) → List (Text × Json)
  | [] => []
  | (k, v) :: rest => (k, sortKeys v) :: sortKeysMembers rest

end

/-- `json.dumps(value, sort_keys=True)`. -/
def dumpsSorted (n : Numerals) (v : Json) : Text := dumps n (sortKeys v)

/-! ## Reading -/

/-- `items[key] = value`: a key that is there keeps its place. -/
def setItem (items : List (Text × Json)) (key : Text) (value : Json) : List (Text × Json) :=
  if items.any fun item => item.1 = key then
    items.map fun item => if item.1 = key then (key, value) else item
  else items ++ [(key, value)]

/-- The dict of these pairs. -/
def dictOf (pairs : List (Text × Json)) : List (Text × Json) :=
  pairs.foldl (fun items pair => setItem items pair.1 pair.2) []

def hexValue (c : Char) : Option Nat :=
  if isDigit c then some (c.toNat - 0x30)
  else if 'a' ≤ c ∧ c ≤ 'f' then some (c.toNat - 0x57)
  else if 'A' ≤ c ∧ c ≤ 'F' then some (c.toNat - 0x37)
  else none

/-- Four hexadecimal digits. -/
def readHex : Reader Char Nat
  | a :: b :: c :: d :: rest =>
    match hexValue a, hexValue b, hexValue c, hexValue d with
    | some a, some b, some c, some d => some (a * 4096 + b * 256 + c * 16 + d, rest)
    | _, _, _, _ => none
  | _ => none

/-- Half of a surrogate pair, as the character that stands for it. -/
def surrogate (m : Nat) : Char := Char.ofNat (0x10f800 + (m - 0xd800))

/-- The second half of a surrogate pair. -/
def readLow (high : Nat) : Reader Char Char
  | '\\' :: 'u' :: t =>
    match readHex t with
    | none => none
    | some (low, rest) =>
      if 0xdc00 ≤ low ∧ low < 0xe000 then
        some (Char.ofNat (0x10000 + (high - 0xd800) * 1024 + (low - 0xdc00)), rest)
      else none
  | _ => none

/-- What follows `\u`. -/
def readUnicode : Reader Char Char := fun t =>
  match readHex t with
  | none => none
  | some (m, rest) =>
    if 0xd800 ≤ m ∧ m < 0xdc00 then
      match readLow m rest with
      | some r => some r
      -- what follows is no second half, and is read on its own
      | none => some (surrogate m, rest)
    else if 0xdc00 ≤ m ∧ m < 0xe000 then some (surrogate m, rest)
    else some (Char.ofNat m, rest)

/-- What the letters after a backslash stand for. -/
def unescapes : List (Char × Char) := ('/', '/') :: shortEscapes.map Prod.swap

/-- What follows a backslash. -/
def readEscape : Reader Char Char
  | [] => none
  | c :: rest =>
    if c = 'u' then readUnicode rest else (unescapes.lookup c).map fun x => (x, rest)

/-- A character of a string, before its closing quote. -/
def readChar : Reader Char Char
  | [] => none
  | c :: rest =>
    if c = '\\' then readEscape rest
    else if c.toNat < 0x20 then none
    else some (c, rest)

/-- The characters of a string, up to its closing quote. -/
def readChars : Nat → Reader Char Text
  | 0, _ => none
  | _ + 1, [] => none
  | n + 1, c :: rest =>
    if c = '"' then some ([], rest)
    else
      match readChar (c :: rest) with
      | none => none
      | some (x, t) =>
        match readChars n t with
        | none => none
        | some (s, t) => some (x :: s, t)

/-- What follows an opening quote. -/
def readString : Reader Char Text := fun t => readChars (t.length + 1) t

/-- `JSON.parse` is strict, `json.loads` is not. -/
inductive Dialect
  | strict
  | python
deriving DecidableEq, Repr

/-- A number, as far as its characters go. -/
def readNumber (d : Dialect) (n : Numerals) : Reader Char Json := fun t =>
  if isNumber (t.takeWhile isNumChar) && !(d == .python && isTooLong (t.takeWhile isNumChar)) then
    some (.num (n.value (t.takeWhile isNumChar)), t.dropWhile isNumChar)
  else none

/-- `parse_constant`. -/
def readConstant (d : Dialect) (n : Numerals) : Reader Char Json := fun t =>
  if d = .strict then none
  else if startsWith t "NaN".toList then some (.num (n.value "NaN".toList), t.drop 3)
  else if startsWith t "Infinity".toList then some (.num (n.value "Infinity".toList), t.drop 8)
  else if startsWith t "-Infinity".toList then some (.num (n.value "-Infinity".toList), t.drop 9)
  else none

def readLiteral : Reader Char Json := fun t =>
  if startsWith t "null".toList then some (.null, t.drop 4)
  else if startsWith t "true".toList then some (.bool true, t.drop 4)
  else if startsWith t "false".toList then some (.bool false, t.drop 5)
  else none

/-- The whitespace of JSON. -/
def isBlank (c : Char) : Bool := c == ' ' || c == '\t' || c == '\n' || c == '\r'

def skipBlanks (t : Text) : Text := t.dropWhile isBlank

theorem skipBlanks_cons {c : Char} (h : isBlank c = false) (t : Text) :
    skipBlanks (c :: t) = c :: t := by
  unfold skipBlanks
  rw [List.dropWhile_cons_of_neg (by simp [h])]

theorem skipBlanks_suffix (t : Text) : skipBlanks t <:+ t := List.dropWhile_suffix _

/-- The items of an array. -/
def itemSyntax : ListSyntax Char :=
  ⟨skipBlanks, ',', ']', by decide, skipBlanks_suffix, skipBlanks_cons rfl, skipBlanks_cons rfl⟩

/-- The members of an object. -/
def memberSyntax : ListSyntax Char :=
  ⟨skipBlanks, ',', '}', by decide, skipBlanks_suffix, skipBlanks_cons rfl, skipBlanks_cons rfl⟩

/-- A member: a string, a colon and a value. -/
def readMember (read : Reader Char Json) : Reader Char (Text × Json)
  | '"' :: t =>
    match readString t with
    | none => none
    | some (key, t) =>
      match skipBlanks t with
      | ':' :: t =>
        match read (skipBlanks t) with
        | none => none
        | some (v, t) => some ((key, v), t)
      | _ => none
  | _ => none

/-- A value that is no list, no dict and no string. -/
def readAtom (d : Dialect) (n : Numerals) : Reader Char Json := fun t =>
  match readConstant d n t with
  | some r => some r
  | none =>
    match t with
    | [] => none
    | c :: _ => if isNumChar c then readNumber d n t else readLiteral t

/-- A value, nested and repeated at most so many times. -/
def readValue (d : Dialect) (n : Numerals) : Nat → Reader Char Json
  | 0, _ => none
  | _ + 1, [] => none
  | k + 1, c :: t =>
    if c = '{' then
      (readSeq memberSyntax (readMember (readValue d n k)) k t).map fun r => (.obj (dictOf r.1), r.2)
    else if c = '[' then
      (readSeq itemSyntax (readValue d n k) k t).map fun r => (.arr r.1, r.2)
    else if c = '"' then (readString t).map fun r => (.str r.1, r.2)
    else readAtom d n (c :: t)

/-- `json.loads(text)` or `JSON.parse(text)`, `none` for the error it raises. -/
def loads (d : Dialect) (n : Numerals) (t : Text) : Option Json :=
  match readValue d n (t.length + 1) (skipBlanks t) with
  | some (v, rest) => if (skipBlanks rest).isEmpty then some v else none
  | none => none

/-! ## Strings -/

theorem hexValue_hexDigit (d : Nat) (h : d < 16) : hexValue (hexDigit d) = some d := by
  revert d
  decide

/-- Four digits are read back. -/
theorem readHex_hexEscape {m : Nat} (h : m < 0x10000) (rest : Text) :
    readHex ((hexEscape m).drop 2 ++ rest) = some (m, rest) := by
  have h3 := hexValue_hexDigit (m / 4096 % 16) (Nat.mod_lt _ (by omega))
  have h2 := hexValue_hexDigit (m / 256 % 16) (Nat.mod_lt _ (by omega))
  have h1 := hexValue_hexDigit (m / 16 % 16) (Nat.mod_lt _ (by omega))
  have h0 := hexValue_hexDigit (m % 16) (Nat.mod_lt _ (by omega))
  have hm : m / 4096 % 16 * 4096 + m / 256 % 16 * 256 + m / 16 % 16 * 16 + m % 16 = m := by omega
  change readHex (hexDigit (m / 4096 % 16) :: hexDigit (m / 256 % 16) :: hexDigit (m / 16 % 16)
    :: hexDigit (m % 16) :: rest) = _
  rw [readHex, h3, h2, h1, h0]
  dsimp only
  rw [hm]

/-- A code point is no surrogate. -/
theorem toNat_valid (c : Char) :
    c.toNat < 0xd800 ∨ (0xdfff < c.toNat ∧ c.toNat < 0x110000) := c.valid

theorem readUnicode_char {c : Char} (h : c.toNat < 0x10000) (rest : Text) :
    readUnicode ((hexEscape c.toNat).drop 2 ++ rest) = some (c, rest) := by
  have hvalid := toNat_valid c
  have hhigh : ¬ (0xd800 ≤ c.toNat ∧ c.toNat < 0xdc00) := by omega
  have hlow : ¬ (0xdc00 ≤ c.toNat ∧ c.toNat < 0xe000) := by omega
  unfold readUnicode
  rw [readHex_hexEscape h]
  simp only [hhigh, hlow, if_false, Char.ofNat_toNat]

theorem readLow_hexEscape (high : Nat) {low : Nat} (hlow : 0xdc00 ≤ low ∧ low < 0xe000)
    (rest : Text) :
    readLow high (hexEscape low ++ rest)
      = some (Char.ofNat (0x10000 + (high - 0xd800) * 1024 + (low - 0xdc00)), rest) := by
  have hhex := readHex_hexEscape (show low < 0x10000 by omega) rest
  have hsplit : hexEscape low ++ rest = '\\' :: 'u' :: ((hexEscape low).drop 2 ++ rest) := rfl
  rw [hsplit, readLow, hhex]
  simp only [hlow, and_self, if_true]

theorem readUnicode_pair {high low : Nat} (hhigh : 0xd800 ≤ high ∧ high < 0xdc00)
    (hlow : 0xdc00 ≤ low ∧ low < 0xe000) (rest : Text) :
    readUnicode ((hexEscape high).drop 2 ++ (hexEscape low ++ rest))
      = some (Char.ofNat (0x10000 + (high - 0xd800) * 1024 + (low - 0xdc00)), rest) := by
  unfold readUnicode
  rw [readHex_hexEscape (by omega)]
  simp only [hhigh, and_self, if_true, readLow_hexEscape high hlow rest]

/-- The two halves of a pair are the character. -/
theorem pair_toNat {c : Char} (h : 0x10000 ≤ c.toNat) {m : Nat} (hm : c.toNat - 0x10000 = m) :
    0xd800 + m / 1024 < 0xdc00 ∧ 0xdc00 + m % 1024 < 0xe000 ∧
      0x10000 + (0xd800 + m / 1024 - 0xd800) * 1024 + (0xdc00 + m % 1024 - 0xdc00) = c.toNat := by
  have hvalid := toNat_valid c
  omega

theorem readChar_hexEscape (m : Nat) (rest : Text) :
    readChar (hexEscape m ++ rest) = readUnicode ((hexEscape m).drop 2 ++ rest) := rfl

/-- The short escapes can be undone. -/
theorem unescapes_shortEscapes :
    ∀ p ∈ shortEscapes, p.2 ≠ 'u' ∧ unescapes.lookup p.2 = some p.1 := by
  decide

theorem shortEscapes_backslash : shortEscapes.lookup '\\' = some '\\' := by decide

theorem shortEscapes_quote : shortEscapes.lookup '"' = some '"' := by decide

/-- An escaped character is read back. -/
theorem readChar_escape (c : Char) (rest : Text) :
    readChar (escape c ++ rest) = some (c, rest) := by
  unfold escape
  split
  next x hx =>
    obtain ⟨hu, hback⟩ := unescapes_shortEscapes _ (mem_of_lookup hx)
    change readEscape (x :: rest) = _
    rw [readEscape, if_neg hu, hback]
    rfl
  next hx =>
    split
    next hprint =>
      have hback : c ≠ '\\' := by
        intro h
        rw [h, shortEscapes_backslash] at hx
        exact absurd hx (by simp)
      rw [List.singleton_append, readChar, if_neg hback, if_neg (by omega)]
    next =>
      split
      next h =>
        rw [readChar_hexEscape]
        exact readUnicode_char h rest
      next h =>
        generalize hm : c.toNat - 0x10000 = m
        obtain ⟨hhigh, hlow, hsum⟩ := pair_toNat (Nat.le_of_not_lt h) hm
        rw [List.append_assoc, readChar_hexEscape,
          readUnicode_pair ⟨Nat.le_add_right _ _, hhigh⟩ ⟨Nat.le_add_right _ _, hlow⟩, hsum,
          Char.ofNat_toNat]

/-- An escaped character does not look like a closing quote. -/
theorem escape_head (c : Char) : ∃ x t, escape c = x :: t ∧ x ≠ '"' := by
  unfold escape
  split
  next => exact ⟨_, _, rfl, by decide⟩
  next hx =>
    split
    next =>
      refine ⟨c, [], rfl, ?_⟩
      intro h
      rw [h, shortEscapes_quote] at hx
      exact absurd hx (by simp)
    next =>
      split
      next => exact ⟨_, _, rfl, by decide⟩
      next => exact ⟨_, _, rfl, by decide⟩

theorem readChars_escape (s rest : Text) {k : Nat} (hk : s.length < k) :
    readChars k (s.flatMap escape ++ '"' :: rest) = some (s, rest) := by
  induction s generalizing k with
  | nil =>
    cases k with
    | zero => omega
    | succ k => rw [List.flatMap_nil, List.nil_append, readChars, if_pos rfl]
  | cons c s ih =>
    cases k with
    | zero => omega
    | succ k =>
      obtain ⟨x, t, hx, hquote⟩ := escape_head c
      have hchar := readChar_escape c (s.flatMap escape ++ '"' :: rest)
      rw [List.flatMap_cons, List.append_assoc, hx, List.cons_append, readChars, if_neg hquote]
      rw [hx, List.cons_append] at hchar
      rw [hchar]
      dsimp only
      rw [ih (Nat.lt_of_succ_lt_succ hk)]

theorem length_le_flatMap_escape (s : Text) : s.length ≤ (s.flatMap escape).length := by
  induction s with
  | nil => exact Nat.le_refl _
  | cons c s ih =>
    obtain ⟨x, t, hx, -⟩ := escape_head c
    rw [List.flatMap_cons, List.length_append, List.length_cons, hx, List.length_cons]
    omega

theorem readString_dumpsString (s rest : Text) :
    readString ((s.flatMap escape ++ ['"']) ++ rest) = some (s, rest) := by
  have hlen := length_le_flatMap_escape s
  rw [List.append_assoc, List.singleton_append]
  unfold readString
  refine readChars_escape s rest ?_
  rw [List.length_append, List.length_cons]
  omega

/-! ## What is read back -/

mutual

/-- What is read back of a value. -/
def reread (n : Numerals) : Json → Json
  | .null => .null
  | .bool b => .bool b
  | .num q => .num (n.value (n.print q))
  | .str s => .str s
  | .arr xs => .arr (rereadItems n xs)
  | .obj items => .obj (dictOf (rereadMembers n items))

def rereadItems (n : Numerals) : List Json → List Json
  | [] => []
  | x :: xs => reread n x :: rereadItems n xs

def rereadMembers (n : Numerals) : List (Text × Json) → List (Text × Json)
  | [] => []
  | (k, v) :: rest => (k, reread n v) :: rereadMembers n rest

end

theorem keys_rereadMembers (n : Numerals) (items : List (Text × Json)) :
    (rereadMembers n items).map Prod.fst = items.map Prod.fst := by
  induction items with
  | nil => rfl
  | cons item items ih =>
    rw [rereadMembers, List.map_cons, List.map_cons, ih]

/-- Pairs of different keys are a dict. -/
theorem dictOf_of_nodup {pairs : List (Text × Json)} (h : (pairs.map Prod.fst).Nodup) :
    dictOf pairs = pairs := by
  have hgeneral : ∀ pairs items : List (Text × Json), ((items ++ pairs).map Prod.fst).Nodup →
      pairs.foldl (fun items pair => setItem items pair.1 pair.2) items = items ++ pairs := by
    intro pairs
    induction pairs with
    | nil => exact fun items _ => (List.append_nil items).symm
    | cons pair pairs ih =>
      intro items hnodup
      have hfresh : items.any (fun item => item.1 = pair.1) = false := by
        rw [List.any_eq_false]
        intro item hitem heq
        rw [List.map_append, List.nodup_append] at hnodup
        exact hnodup.2.2 item.1 (List.mem_map_of_mem hitem) pair.1 (by simp) (of_decide_eq_true heq)
      rw [List.foldl_cons, setItem, hfresh, if_neg (by simp)]
      rw [ih _ (by rwa [List.append_assoc]), List.append_assoc]
      rfl
  exact hgeneral pairs [] h

/-- A dict is read back with its keys. -/
theorem reread_obj (n : Numerals) {items : List (Text × Json)} (h : (items.map Prod.fst).Nodup) :
    reread n (.obj items) = .obj (rereadMembers n items) := by
  rw [reread, dictOf_of_nodup (by rwa [keys_rereadMembers])]

/-- What may follow a value. -/
def Follow (rest : Text) : Prop := ∀ c t, rest = c :: t → isNumChar c = false

theorem Follow.cons {c : Char} (h : isNumChar c = false) (t : Text) : Follow (c :: t) := by
  intro c' t' heq
  rw [List.cons.injEq] at heq
  rw [← heq.1]
  exact h

theorem Follow.nil : Follow [] := fun _ _ h => absurd h (by simp)

theorem Follow.takeWhile {rest : Text} (h : Follow rest) :
    rest.takeWhile isNumChar = [] ∧ rest.dropWhile isNumChar = rest := by
  cases rest with
  | nil => exact ⟨rfl, rfl⟩
  | cons c t =>
    have hc := h c t rfl
    exact ⟨List.takeWhile_cons_of_neg (by simp [hc]), List.dropWhile_cons_of_neg (by simp [hc])⟩

theorem readNumber_print (d : Dialect) (n : Numerals) (q : Rat) {rest : Text} (h : Follow rest) :
    readNumber d n (n.print q ++ rest) = some (.num (n.value (n.print q)), rest) := by
  have hall := n.all_print q
  have htake : (n.print q ++ rest).takeWhile isNumChar = n.print q := by
    rw [List.takeWhile_append_of_pos hall, h.takeWhile.1, List.append_nil]
  have hdrop : (n.print q ++ rest).dropWhile isNumChar = rest := by
    rw [List.dropWhile_append_of_pos hall, h.takeWhile.2]
  unfold readNumber
  rw [htake, hdrop, n.isNumber_print q, n.isTooLong_print q, Bool.and_false]
  rfl

/-- What is printed is none of the constants. -/
theorem readConstant_print (d : Dialect) (n : Numerals) (q : Rat) (rest : Text) :
    readConstant d n (n.print q ++ rest) = none := by
  have hall := n.all_print q
  have hnumber := n.isNumber_print q
  unfold readConstant
  cases hprint : n.print q with
  | nil => exact absurd hprint (n.print_ne_nil q)
  | cons c t =>
    rw [hprint] at hall hnumber
    have hc := hall c List.mem_cons_self
    have hN : c ≠ 'N' := by
      rintro rfl
      exact absurd hc (by decide)
    have hI : c ≠ 'I' := by
      rintro rfl
      exact absurd hc (by decide)
    have hminus : startsWith (c :: t ++ rest) "-Infinity".toList = false := by
      cases t with
      | nil =>
        -- a sign alone is no number
        have hsign : c ≠ '-' := by
          rintro rfl
          exact absurd hnumber (by decide)
        simp [startsWith, List.isPrefixOf, hsign.symm]
      | cons x t =>
        have hx : x ≠ 'I' := by
          rintro rfl
          exact absurd (hall 'I' (by simp)) (by decide)
        simp [startsWith, List.isPrefixOf, hx.symm]
    rw [hminus]
    simp [startsWith, hN.symm, hI.symm]

theorem readAtom_print (d : Dialect) (n : Numerals) (q : Rat) {rest : Text} (h : Follow rest) :
    readAtom d n (n.print q ++ rest) = some (.num (n.value (n.print q)), rest) := by
  have hnumber := readNumber_print d n q h
  unfold readAtom
  rw [readConstant_print]
  obtain ⟨c, t, ht⟩ := List.exists_cons_of_ne_nil (n.print_ne_nil q)
  have hc := n.all_print q c (by rw [ht]; simp)
  rw [ht, List.cons_append] at hnumber ⊢
  dsimp only
  rw [if_pos hc, hnumber]

theorem isNumChar_ne {c : Char} (h : isNumChar c = true) :
    c ≠ '{' ∧ c ≠ '[' ∧ c ≠ '"' ∧ c ≠ ']' ∧ isBlank c = false := by
  refine ⟨?_, ?_, ?_, ?_, ?_⟩
  · rintro rfl; exact absurd h (by decide)
  · rintro rfl; exact absurd h (by decide)
  · rintro rfl; exact absurd h (by decide)
  · rintro rfl; exact absurd h (by decide)
  · by_contra hblank
    simp only [isBlank, Bool.not_eq_false, Bool.or_eq_true, beq_iff_eq] at hblank
    rcases hblank with ((rfl | rfl) | rfl) | rfl
    all_goals exact absurd h (by decide)

/-- A value begins with a symbol that is neither blank nor closes a list. -/
theorem dumps_head (n : Numerals) (v : Json) :
    ∃ c t, dumps n v = c :: t ∧ c ≠ ']' ∧ isBlank c = false := by
  cases v with
  | null => exact ⟨'n', _, rfl, by decide, rfl⟩
  | bool b =>
    cases b with
    | true => exact ⟨'t', _, rfl, by decide, rfl⟩
    | false => exact ⟨'f', _, rfl, by decide, rfl⟩
  | num q =>
    obtain ⟨c, t, ht⟩ := List.exists_cons_of_ne_nil (n.print_ne_nil q)
    obtain ⟨-, -, -, hc, hblank⟩ := isNumChar_ne (n.all_print q c (by rw [ht]; simp))
    exact ⟨c, t, by rw [dumps, ht], hc, hblank⟩
  | str s => exact ⟨'"', _, rfl, by decide, rfl⟩
  | arr xs => exact ⟨'[', _, by rw [dumps], by decide, rfl⟩
  | obj items => exact ⟨'{', _, by rw [dumps], by decide, rfl⟩

theorem mem_dumpsItems {n : Numerals} {xs : List Json} {t : Text} (h : t ∈ dumpsItems n xs) :
    ∃ v, t = dumps n v := by
  induction xs with
  | nil => exact absurd h (by simp [dumpsItems])
  | cons x xs ih =>
    rw [dumpsItems] at h
    rcases List.mem_cons.mp h with rfl | hxs
    · exact ⟨x, rfl⟩
    · exact ih hxs

theorem mem_dumpsMembers {n : Numerals} {items : List (Text × Json)} {t : Text}
    (h : t ∈ dumpsMembers n items) :
    ∃ k v, t = dumpsString k ++ (": ".toList ++ dumps n v) := by
  induction items with
  | nil => exact absurd h (by simp [dumpsMembers])
  | cons item items ih =>
    rw [dumpsMembers] at h
    rcases List.mem_cons.mp h with rfl | hitems
    · exact ⟨item.1, item.2, rfl⟩
    · exact ih hitems

/-- A member is read back when its value is. -/
theorem readMember_dumps {n : Numerals} {read : Reader Char Json} {v x : Json} (k : Text)
    (h : ReadsBack read Follow (dumps n v) x) :
    ReadsBack (readMember read) Follow (dumpsString k ++ (": ".toList ++ dumps n v)) (k, x) := by
  intro rest hrest
  obtain ⟨c, t, hhead, -, hblank⟩ := dumps_head n v
  have hstring := readString_dumpsString k (':' :: ' ' :: (dumps n v ++ rest))
  have htext : dumpsString k ++ (": ".toList ++ dumps n v) ++ rest
      = '"' :: ((k.flatMap escape ++ ['"']) ++ (':' :: ' ' :: (dumps n v ++ rest))) := by
    simp [dumpsString]
  have hskip : skipBlanks (' ' :: (dumps n v ++ rest)) = dumps n v ++ rest := by
    rw [hhead, List.cons_append]
    exact skipBlanks_cons hblank _
  rw [htext, readMember, hstring]
  change (match read (skipBlanks (' ' :: (dumps n v ++ rest))) with
    | none => none
    | some (v, t) => some ((k, v), t)) = _
  rw [hskip, h rest hrest]

theorem itemSyntax_gap {n : Numerals} {xs : List Json} :
    ∀ text ∈ dumpsItems n xs, ∀ rest, itemSyntax.skip ([' '] ++ (text ++ rest)) = text ++ rest := by
  intro text htext rest
  obtain ⟨v, rfl⟩ := mem_dumpsItems htext
  obtain ⟨c, t, hhead, -, hblank⟩ := dumps_head n v
  rw [hhead]
  exact skipBlanks_cons hblank _

theorem memberSyntax_gap {n : Numerals} {items : List (Text × Json)} :
    ∀ text ∈ dumpsMembers n items, ∀ rest,
      memberSyntax.skip ([' '] ++ (text ++ rest)) = text ++ rest := by
  intro text htext rest
  obtain ⟨k, v, rfl⟩ := mem_dumpsMembers htext
  exact skipBlanks_cons (c := '"') rfl _

mutual

theorem readValue_dumps (d : Dialect) (n : Numerals) : ∀ (v : Json) (k : Nat),
    (dumps n v).length ≤ k → ReadsBack (readValue d n k) Follow (dumps n v) (reread n v)
  | .null, k, hk => by
    intro rest _
    cases k with
    | zero => exact absurd hk (by simp [dumps])
    | succ k => cases d <;> rfl
  | .bool b, k, hk => by
    intro rest _
    cases k with
    | zero => cases b <;> exact absurd hk (by simp [dumps])
    | succ k => cases d <;> cases b <;> rfl
  | .num q, k, hk => by
    intro rest hrest
    obtain ⟨c, t, ht⟩ := List.exists_cons_of_ne_nil (n.print_ne_nil q)
    have hc := n.all_print q c (by rw [ht]; simp)
    obtain ⟨hbrace, hbracket, hquote, -, -⟩ := isNumChar_ne hc
    have hnumber := readAtom_print d n q hrest
    rw [dumps] at hk ⊢
    rw [ht] at hk
    cases k with
    | zero => exact absurd hk (by simp)
    | succ k =>
      rw [ht, List.cons_append] at hnumber ⊢
      rw [readValue, if_neg hbrace, if_neg hbracket, if_neg hquote, hnumber, reread, ht]
  | .str s, k, hk => by
    intro rest _
    cases k with
    | zero => exact absurd hk (by simp [dumps, dumpsString])
    | succ k =>
      rw [dumps, dumpsString, List.cons_append, readValue, if_neg (by decide), if_neg (by decide),
        if_pos rfl, readString_dumpsString, reread]
      rfl
  | .arr xs, k, hk => by
    intro rest _
    rw [dumps] at hk ⊢
    cases k with
    | zero => exact absurd hk (by simp)
    | succ k =>
      rw [List.length_cons, List.length_append, List.length_singleton] at hk
      have hitems := readItems_dumps d n xs k fun t ht => by
        have := length_le_intercalate ", ".toList ht
        omega
      have hcount : (dumpsItems n xs).length ≤ k := by
        have hne : ∀ t ∈ dumpsItems n xs, t ≠ [] := by
          intro t ht
          obtain ⟨v, rfl⟩ := mem_dumpsItems ht
          obtain ⟨c, t, hhead, -⟩ := dumps_head n v
          rw [hhead]
          simp
        have := count_le_intercalate ", ".toList hne
        omega
      have hseq := readSeq_intercalate (l := itemSyntax) (fun t => Follow.cons rfl t)
        (fun t => Follow.cons rfl t) hitems itemSyntax_gap (fun text htext => by
          obtain ⟨v, rfl⟩ := mem_dumpsItems htext
          obtain ⟨c, t, hhead, hclose, hblank⟩ := dumps_head n v
          exact ⟨c, t, hhead, hclose, skipBlanks_cons hblank⟩) hcount rest
      rw [List.cons_append, List.append_assoc, readValue, if_neg (by decide), if_pos rfl, reread]
      change (readSeq itemSyntax (readValue d n k) k
        ((itemSyntax.sep :: [' ']).intercalate (dumpsItems n xs) ++ itemSyntax.close :: rest)).map _
          = _
      rw [hseq]
      rfl
  | .obj items, k, hk => by
    intro rest _
    rw [dumps] at hk ⊢
    cases k with
    | zero => exact absurd hk (by simp)
    | succ k =>
      rw [List.length_cons, List.length_append, List.length_singleton] at hk
      have hitems := readMembers_dumps d n items k fun t ht => by
        have := length_le_intercalate ", ".toList ht
        omega
      have hcount : (dumpsMembers n items).length ≤ k := by
        have hne : ∀ t ∈ dumpsMembers n items, t ≠ [] := by
          intro t ht
          obtain ⟨k, v, rfl⟩ := mem_dumpsMembers ht
          simp [dumpsString]
        have := count_le_intercalate ", ".toList hne
        omega
      have hseq := readSeq_intercalate (l := memberSyntax) (fun t => Follow.cons rfl t)
        (fun t => Follow.cons rfl t) hitems memberSyntax_gap (fun text htext => by
          obtain ⟨k, v, rfl⟩ := mem_dumpsMembers htext
          exact ⟨'"', _, rfl, by decide, skipBlanks_cons (c := '"') rfl⟩) hcount rest
      rw [List.cons_append, List.append_assoc, readValue, if_pos rfl, reread]
      change (readSeq memberSyntax (readMember (readValue d n k)) k
        ((memberSyntax.sep :: [' ']).intercalate (dumpsMembers n items)
          ++ memberSyntax.close :: rest)).map _ = _
      rw [hseq]
      rfl

theorem readItems_dumps (d : Dialect) (n : Numerals) : ∀ (xs : List Json) (k : Nat),
    (∀ t ∈ dumpsItems n xs, t.length ≤ k) →
    List.Forall₂ (ReadsBack (readValue d n k) Follow) (dumpsItems n xs) (rereadItems n xs)
  | [], _, _ => .nil
  | x :: xs, k, hk => by
    rw [dumpsItems] at hk ⊢
    exact .cons (readValue_dumps d n x k (hk _ (by simp)))
      (readItems_dumps d n xs k fun t ht => hk t (List.mem_cons_of_mem _ ht))

theorem readMembers_dumps (d : Dialect) (n : Numerals) : ∀ (items : List (Text × Json)) (k : Nat),
    (∀ t ∈ dumpsMembers n items, t.length ≤ k) →
    List.Forall₂ (ReadsBack (readMember (readValue d n k)) Follow) (dumpsMembers n items)
      (rereadMembers n items)
  | [], _, _ => .nil
  | (key, v) :: items, k, hk => by
    rw [dumpsMembers] at hk ⊢
    have hv : (dumps n v).length ≤ k := by
      have := hk _ (List.mem_cons_self ..)
      rw [List.length_append, List.length_append] at this
      omega
    exact .cons (readMember_dumps key (readValue_dumps d n v k hv))
      (readMembers_dumps d n items k fun t ht => hk t (List.mem_cons_of_mem _ ht))

end

/-- A value's text is read back. -/
theorem loads_dumps (d : Dialect) (n : Numerals) (v : Json) :
    loads d n (dumps n v) = some (reread n v) := by
  obtain ⟨c, t, hhead, -, hblank⟩ := dumps_head n v
  have hread := readValue_dumps d n v ((dumps n v).length + 1) (Nat.le_succ _) [] Follow.nil
  rw [List.append_nil] at hread
  have hskip : skipBlanks (dumps n v) = dumps n v := by
    rw [hhead]
    exact skipBlanks_cons hblank t
  unfold loads
  rw [hskip, hread]
  rfl

/-! ## The characters of a text -/

/-- Between the blank and the tilde. -/
def isPrintable (c : Char) : Bool := 0x20 ≤ c.toNat && c.toNat ≤ 0x7e

theorem isPrintable_hexDigit (m : Nat) : isPrintable (hexDigit (m % 16)) = true := by
  have hall : ∀ d, d < 16 → isPrintable (hexDigit d) = true := by decide
  exact hall _ (Nat.mod_lt _ (by decide))

theorem isPrintable_hexEscape (m : Nat) : ∀ c ∈ hexEscape m, isPrintable c = true := by
  intro c hc
  simp only [hexEscape, List.mem_cons, List.not_mem_nil, or_false] at hc
  rcases hc with rfl | rfl | rfl | rfl | rfl | rfl
  · rfl
  · rfl
  all_goals exact isPrintable_hexDigit _

theorem isPrintable_shortEscapes : ∀ p ∈ shortEscapes, isPrintable p.2 = true := by decide

theorem isPrintable_escape (c : Char) : ∀ x ∈ escape c, isPrintable x = true := by
  intro x hx
  unfold escape at hx
  split at hx
  next y hy =>
    rw [List.mem_cons, List.mem_singleton] at hx
    rcases hx with rfl | rfl
    · rfl
    · exact isPrintable_shortEscapes _ (mem_of_lookup hy)
  next =>
    split at hx
    next hprint =>
      rw [List.mem_singleton] at hx
      rw [hx, isPrintable, Bool.and_eq_true, decide_eq_true_eq, decide_eq_true_eq]
      exact hprint
    next =>
      split at hx
      next => exact isPrintable_hexEscape _ x hx
      next =>
        rcases List.mem_append.mp hx with h | h
        · exact isPrintable_hexEscape _ x h
        · exact isPrintable_hexEscape _ x h

theorem isPrintable_dumpsString (s : Text) : ∀ c ∈ dumpsString s, isPrintable c = true := by
  intro c hc
  simp only [dumpsString, List.mem_cons, List.mem_append, List.mem_flatMap, List.not_mem_nil,
    or_false] at hc
  rcases hc with rfl | ⟨x, -, hx⟩ | rfl
  · rfl
  · exact isPrintable_escape x c hx
  · rfl

theorem isPrintable_numChar {c : Char} (h : isNumChar c = true) : isPrintable c = true := by
  simp only [isNumChar, isDigit, Bool.or_eq_true, Bool.and_eq_true, decide_eq_true_eq,
    beq_iff_eq] at h
  rcases h with ((((⟨hlow, hhigh⟩ | rfl) | rfl) | rfl) | rfl) | rfl
  · have h0 : '0'.toNat ≤ c.toNat := hlow
    have h9 : c.toNat ≤ '9'.toNat := hhigh
    rw [show '0'.toNat = 48 from rfl] at h0
    rw [show '9'.toNat = 57 from rfl] at h9
    rw [isPrintable, Bool.and_eq_true, decide_eq_true_eq, decide_eq_true_eq]
    omega
  all_goals rfl

/-- The symbols of an intercalation are those of the separator and the texts. -/
theorem all_intercalate {sep : Text} {texts : List Text} {f : Char → Bool}
    (hsep : ∀ c ∈ sep, f c = true) (htexts : ∀ t ∈ texts, ∀ c ∈ t, f c = true) :
    ∀ c ∈ sep.intercalate texts, f c = true := by
  induction texts with
  | nil => exact fun c hc => absurd hc (by simp)
  | cons t ts ih =>
    intro c hc
    cases ts with
    | nil =>
      rw [List.intercalate_singleton] at hc
      exact htexts t (by simp) c hc
    | cons t' ts =>
      rw [List.intercalate_cons_cons, List.mem_append, List.mem_append] at hc
      rcases hc with (hc | hc) | hc
      · exact htexts t (by simp) c hc
      · exact hsep c hc
      · exact ih (fun x hx => htexts x (List.mem_cons_of_mem _ hx)) c hc

theorem isPrintable_comma : ∀ c ∈ ", ".toList, isPrintable c = true :=
  List.all_eq_true.mp (by decide)

theorem isPrintable_enclosed {x y : Char} {t : Text} (hx : isPrintable x = true)
    (ht : ∀ c ∈ t, isPrintable c = true) (hy : isPrintable y = true) :
    ∀ c ∈ x :: (t ++ [y]), isPrintable c = true := by
  intro c hc
  rw [List.mem_cons, List.mem_append, List.mem_singleton] at hc
  rcases hc with rfl | hc | rfl
  · exact hx
  · exact ht c hc
  · exact hy

mutual

/-- A value's text is one line of ASCII. -/
theorem isPrintable_dumps (n : Numerals) : ∀ (v : Json), ∀ c ∈ dumps n v, isPrintable c = true
  | .null => show ∀ c ∈ "null".toList, isPrintable c = true from List.all_eq_true.mp (by decide)
  | .bool true => show ∀ c ∈ "true".toList, isPrintable c = true from List.all_eq_true.mp (by decide)
  | .bool false => show ∀ c ∈ "false".toList, isPrintable c = true from List.all_eq_true.mp (by decide)
  | .num q => fun c hc => isPrintable_numChar (n.all_print q c hc)
  | .str s => isPrintable_dumpsString s
  | .arr xs => by
    rw [dumps]
    exact isPrintable_enclosed rfl (all_intercalate isPrintable_comma (isPrintable_dumpsItems n xs))
      rfl
  | .obj items => by
    rw [dumps]
    exact isPrintable_enclosed rfl
      (all_intercalate isPrintable_comma (isPrintable_dumpsMembers n items)) rfl

theorem isPrintable_dumpsItems (n : Numerals) : ∀ (xs : List Json), ∀ t ∈ dumpsItems n xs,
    ∀ c ∈ t, isPrintable c = true
  | [], t, ht => absurd ht (by simp [dumpsItems])
  | x :: xs, t, ht => by
    rw [dumpsItems] at ht
    rcases List.mem_cons.mp ht with rfl | hxs
    · exact isPrintable_dumps n x
    · exact isPrintable_dumpsItems n xs t hxs

theorem isPrintable_dumpsMembers (n : Numerals) : ∀ (items : List (Text × Json)),
    ∀ t ∈ dumpsMembers n items, ∀ c ∈ t, isPrintable c = true
  | [], t, ht => absurd ht (by simp [dumpsMembers])
  | (k, v) :: items, t, ht => by
    rw [dumpsMembers] at ht
    rcases List.mem_cons.mp ht with rfl | hitems
    · intro c hc
      rw [List.mem_append, List.mem_append] at hc
      rcases hc with hc | hc | hc
      · exact isPrintable_dumpsString k c hc
      · have hcolon : ∀ c ∈ ": ".toList, isPrintable c = true := List.all_eq_true.mp (by decide)
        exact hcolon c hc
      · exact isPrintable_dumps n v c hc
    · exact isPrintable_dumpsMembers n items t hitems

end

/-! ## The end of an object -/

theorem readHex_consumes : Reader.Consumes readHex := by
  intro t m rest h
  unfold readHex at h
  split at h
  next a b c d t =>
    split at h
    next =>
      obtain ⟨-, rfl⟩ := by simpa using h
      exact ⟨[a, b, c, d], rfl⟩
    next => exact absurd h (by simp)
  next => exact absurd h (by simp)

theorem readLow_consumes (high : Nat) : Reader.Consumes (readLow high) := by
  intro t x rest h
  unfold readLow at h
  split at h
  next t =>
    split at h
    next => exact absurd h (by simp)
    next low rest' hhex =>
      split at h
      next =>
        rw [← (Prod.mk.inj (Option.some.inj h)).2]
        exact (readHex_consumes _ _ _ hhex).trans ⟨['\\', 'u'], rfl⟩
      next => exact absurd h (by simp)
  next => exact absurd h (by simp)

theorem readUnicode_consumes : Reader.Consumes readUnicode := by
  intro t x rest h
  unfold readUnicode at h
  split at h
  next => exact absurd h (by simp)
  next m rest' hhex =>
    have hsuffix := readHex_consumes _ _ _ hhex
    split at h
    next =>
      split at h
      next r hlow =>
        rw [Option.some.inj h] at hlow
        exact (readLow_consumes m _ _ _ hlow).trans hsuffix
      next =>
        rw [← (Prod.mk.inj (Option.some.inj h)).2]
        exact hsuffix
    next =>
      split at h
      next =>
        rw [← (Prod.mk.inj (Option.some.inj h)).2]
        exact hsuffix
      next =>
        rw [← (Prod.mk.inj (Option.some.inj h)).2]
        exact hsuffix

theorem readChar_consumes : Reader.Consumes readChar := by
  intro t x rest h
  cases t with
  | nil => exact absurd h (by simp [readChar])
  | cons c t =>
    refine List.IsSuffix.trans ?_ (List.suffix_cons c t)
    rw [readChar] at h
    split at h
    next =>
      cases t with
      | nil => exact absurd h (by simp [readEscape])
      | cons c' t =>
        refine List.IsSuffix.trans ?_ (List.suffix_cons c' t)
        rw [readEscape] at h
        split at h
        next => exact readUnicode_consumes _ _ _ h
        next =>
          obtain ⟨y, -, hy⟩ := Option.map_eq_some_iff.mp h
          exact (Prod.mk.inj hy).2 ▸ List.suffix_refl t
    next =>
      split at h
      next => exact absurd h (by simp)
      next => exact (Prod.mk.inj (Option.some.inj h)).2 ▸ List.suffix_refl t

theorem readChars_consumes (k : Nat) : Reader.Consumes (readChars k) := by
  induction k with
  | zero => exact fun t x rest h => absurd h (by simp [readChars])
  | succ k ih =>
    intro t x rest h
    cases t with
    | nil => exact absurd h (by simp [readChars])
    | cons c t =>
      rw [readChars] at h
      split at h
      next =>
        rw [← (Prod.mk.inj (Option.some.inj h)).2]
        exact List.suffix_cons c t
      next =>
        split at h
        next => exact absurd h (by simp)
        next y t' hchar =>
          split at h
          next => exact absurd h (by simp)
          next s t'' hmore =>
            rw [← (Prod.mk.inj (Option.some.inj h)).2]
            exact (ih _ _ _ hmore).trans (readChar_consumes _ _ _ hchar)

theorem readMember_consumes {read : Reader Char Json} (hread : read.Consumes) :
    Reader.Consumes (readMember read) := by
  intro t x rest h
  unfold readMember at h
  split at h
  next t =>
    split at h
    next => exact absurd h (by simp)
    next key t' hkey =>
      have hstring : t' <:+ '"' :: t :=
        (readChars_consumes _ _ _ _ hkey).trans (List.suffix_cons _ t)
      have hblanks := (skipBlanks_suffix t').trans hstring
      split at h
      next t'' hcolon =>
        rw [hcolon] at hblanks
        have hvalue := (skipBlanks_suffix t'').trans ((List.suffix_cons ':' t'').trans hblanks)
        split at h
        next => exact absurd h (by simp)
        next v tail hv =>
          rw [← (Prod.mk.inj (Option.some.inj h)).2]
          exact (hread _ _ _ hv).trans hvalue
      next => exact absurd h (by simp)
  next => exact absurd h (by simp)

theorem readNumber_consumes (d : Dialect) (n : Numerals) : Reader.Consumes (readNumber d n) := by
  intro t x rest h
  unfold readNumber at h
  split at h
  next =>
    rw [← (Prod.mk.inj (Option.some.inj h)).2]
    exact List.dropWhile_suffix _
  next => exact absurd h (by simp)

theorem readLiteral_consumes : Reader.Consumes readLiteral := by
  intro t x rest h
  unfold readLiteral at h
  split at h
  next =>
    rw [← (Prod.mk.inj (Option.some.inj h)).2]
    exact List.drop_suffix _ _
  next =>
    split at h
    next =>
      rw [← (Prod.mk.inj (Option.some.inj h)).2]
      exact List.drop_suffix _ _
    next =>
      split at h
      next =>
        rw [← (Prod.mk.inj (Option.some.inj h)).2]
        exact List.drop_suffix _ _
      next => exact absurd h (by simp)

/-- A literal is no object. -/
theorem readLiteral_not_obj {t rest : Text} {items : List (Text × Json)} :
    readLiteral t ≠ some (.obj items, rest) := by
  intro h
  unfold readLiteral at h
  split at h
  next => exact absurd h (by simp)
  next =>
    split at h
    next => exact absurd h (by simp)
    next =>
      split at h
      next => exact absurd h (by simp)
      next => exact absurd h (by simp)

theorem readNumber_not_obj {d : Dialect} {n : Numerals} {t rest : Text}
    {items : List (Text × Json)} : readNumber d n t ≠ some (.obj items, rest) := by
  intro h
  unfold readNumber at h
  split at h
  next => exact absurd h (by simp)
  next => exact absurd h (by simp)

/-- A constant is a number, and leaves the end of the text. -/
theorem readConstant_some {d : Dialect} {n : Numerals} {t rest : Text} {v : Json}
    (h : readConstant d n t = some (v, rest)) : (∃ q, v = .num q) ∧ rest <:+ t := by
  unfold readConstant at h
  split at h
  next => exact absurd h (by simp)
  next =>
    split at h
    next =>
      obtain ⟨hv, hrest⟩ := Prod.mk.inj (Option.some.inj h)
      exact ⟨⟨_, hv.symm⟩, hrest ▸ List.drop_suffix _ _⟩
    next =>
      split at h
      next =>
        obtain ⟨hv, hrest⟩ := Prod.mk.inj (Option.some.inj h)
        exact ⟨⟨_, hv.symm⟩, hrest ▸ List.drop_suffix _ _⟩
      next =>
        split at h
        next =>
          obtain ⟨hv, hrest⟩ := Prod.mk.inj (Option.some.inj h)
          exact ⟨⟨_, hv.symm⟩, hrest ▸ List.drop_suffix _ _⟩
        next => exact absurd h (by simp)

theorem readAtom_consumes (d : Dialect) (n : Numerals) : Reader.Consumes (readAtom d n) := by
  intro t x rest h
  unfold readAtom at h
  split at h
  next r hconstant =>
    rw [Option.some.inj h] at hconstant
    exact (readConstant_some hconstant).2
  next =>
    split at h
    next => exact absurd h (by simp)
    next =>
      split at h
      next => exact readNumber_consumes d n _ _ _ h
      next => exact readLiteral_consumes _ _ _ h

theorem readAtom_not_obj {d : Dialect} {n : Numerals} {t rest : Text}
    {items : List (Text × Json)} : readAtom d n t ≠ some (.obj items, rest) := by
  intro h
  unfold readAtom at h
  split at h
  next r hconstant =>
    rw [Option.some.inj h] at hconstant
    obtain ⟨⟨q, hq⟩, -⟩ := readConstant_some hconstant
    exact absurd hq (by simp)
  next =>
    split at h
    next => exact absurd h (by simp)
    next =>
      split at h
      next => exact absurd h readNumber_not_obj
      next => exact absurd h readLiteral_not_obj

theorem readValue_consumes (d : Dialect) (n : Numerals) (k : Nat) :
    Reader.Consumes (readValue d n k) := by
  induction k with
  | zero => exact fun t x rest h => absurd h (by simp [readValue])
  | succ k ih =>
    intro t x rest h
    cases t with
    | nil => exact absurd h (by simp [readValue])
    | cons c t =>
      rw [readValue] at h
      split at h
      next =>
        obtain ⟨r, hr, hv⟩ := Option.map_eq_some_iff.mp h
        rw [← (Prod.mk.inj hv).2]
        exact ((List.suffix_cons _ _).trans (readSeq_close (readMember_consumes ih) hr)).trans
          (List.suffix_cons c t)
      next =>
        split at h
        next =>
          obtain ⟨r, hr, hv⟩ := Option.map_eq_some_iff.mp h
          rw [← (Prod.mk.inj hv).2]
          exact ((List.suffix_cons _ _).trans (readSeq_close ih hr)).trans (List.suffix_cons c t)
        next =>
          split at h
          next =>
            obtain ⟨r, hr, hv⟩ := Option.map_eq_some_iff.mp h
            rw [← (Prod.mk.inj hv).2]
            exact (readChars_consumes _ _ _ _ hr).trans (List.suffix_cons c t)
          next => exact readAtom_consumes d n _ _ _ h

/-- An object is read up to its brace. -/
theorem readValue_obj {d : Dialect} {n : Numerals} {k : Nat} {t rest : Text}
    {items : List (Text × Json)} (h : readValue d n k t = some (.obj items, rest)) :
    '}' :: rest <:+ t := by
  cases k with
  | zero => exact absurd h (by simp [readValue])
  | succ k =>
    cases t with
    | nil => exact absurd h (by simp [readValue])
    | cons c t =>
      refine List.IsSuffix.trans ?_ (List.suffix_cons c t)
      rw [readValue] at h
      split at h
      next =>
        obtain ⟨r, hr, hv⟩ := Option.map_eq_some_iff.mp h
        rw [← (Prod.mk.inj hv).2]
        exact readSeq_close (readMember_consumes (readValue_consumes d n k)) hr
      next =>
        split at h
        next =>
          obtain ⟨r, -, hv⟩ := Option.map_eq_some_iff.mp h
          exact absurd (Prod.mk.inj hv).1 (by simp)
        next =>
          split at h
          next =>
            obtain ⟨r, -, hv⟩ := Option.map_eq_some_iff.mp h
            exact absurd (Prod.mk.inj hv).1 (by simp)
          next => exact absurd h readAtom_not_obj

/-- A text that is read as an object ends with a brace, up to blanks. -/
theorem loads_obj {d : Dialect} {n : Numerals} {t : Text} {items : List (Text × Json)}
    (h : loads d n t = some (.obj items)) :
    ∃ before blanks, t = before ++ '}' :: blanks ∧ ∀ c ∈ blanks, isBlank c = true := by
  unfold loads at h
  split at h
  next v rest hv =>
    split at h
    next hblank =>
      obtain rfl := Option.some.inj h
      obtain ⟨before, hbefore⟩ := (readValue_obj hv).trans (skipBlanks_suffix t)
      rw [List.isEmpty_iff] at hblank
      exact ⟨before, rest, hbefore.symm, List.dropWhile_eq_nil_iff.mp hblank⟩
    next => exact absurd h (by simp)
  next => exact absurd h (by simp)

end Eidetic.Py
