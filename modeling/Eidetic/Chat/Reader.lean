import Eidetic.Chat.Route
import Eidetic.Lib.Utf8

/-!
# The reader of the frontend

The loop of `send` over the chunks of the response: they are decoded, split
into lines, and the events in the lines change the text of the message that is
shown.

The loop is that of `useStreamChat.js`: a decoder that keeps the bytes of an
unfinished character, a buffer that keeps the unfinished line, and one call for
each line that begins with `data: `. Both are machines of the library
(`Lib.Utf8`, `Lib.Lines`), instantiated with what the frontend does with a line;
what is not JSON is skipped. Of the state of the page only the text of the reply
is kept here: a `token` event appends to it, a `preamble_discard` empties it,
and at `done` it is noted.
-/

namespace Eidetic.Chat

open Eidetic.Lib Eidetic.Py

/-- What `trim()` removes. -/
def scriptSpaces : List Nat :=
  [0x9, 0xa, 0xb, 0xc, 0xd, 0x20, 0xa0, 0x1680, 0x2000, 0x2001, 0x2002, 0x2003, 0x2004, 0x2005,
    0x2006, 0x2007, 0x2008, 0x2009, 0x200a, 0x2028, 0x2029, 0x202f, 0x205f, 0x3000, 0xfeff]

def isScriptSpace (c : Char) : Bool := scriptSpaces.contains c.toNat

/-- `s.trim()`. -/
def trim (s : Text) : Text := ((s.dropWhile isScriptSpace).reverse.dropWhile isScriptSpace).reverse

mutual

/-- A value that is appended to a string; `undefined` is that of an absent key. -/
def toScript (n : Numerals) : Json → Text
  | .null => "null".toList
  | .bool b => if b then "true".toList else "false".toList
  | .num q => n.print q
  | .str s => s
  | .arr xs => ",".toList.intercalate (toScriptItems n xs)
  | .obj _ => "[object Object]".toList

/-- The items of an array in a string: `null` leaves nothing. -/
def toScriptItems (n : Numerals) : List Json → List Text
  | [] => []
  | .null :: xs => [] :: toScriptItems n xs
  | x :: xs => toScript n x :: toScriptItems n xs

end

/-- `value || other`. -/
def scriptOr (value : Option Json) (other : Json) : Json :=
  match value with
  | none => other
  | some .null => other
  | some (.bool false) => other
  | some (.num q) => if q = 0 then other else .num q
  | some (.str []) => other
  | some v => v

/-- The message of the reply, as far as its text goes. -/
structure Shown where
  text : Text := []
  /-- The text when the `done` event is handled. -/
  atDone : Option Text := none

/-- The handling of a parsed event. -/
def Shown.onEvent (n : Numerals) (m : Shown) : Json → Shown
  | .obj event =>
    let type := getItem event "type"
    if isText type "token" then
      let content :=
        match getItem event "content" with
        | some value => toScript n value
        | none => "undefined".toList
      { m with text := m.text ++ content }
    else if isText type "preamble_discard" then { m with text := [] }
    else if isText type "done" then { m with atDone := some m.text }
    else if isText type "error" then
      { m with text :=
          toScript n (scriptOr (getItem event "message") (.str "Error".toList)) }
    else m
  -- `null.type` raises, which is caught; other values have no type
  | _ => m

/-- The handling of a line. -/
def Shown.onLine (n : Numerals) (m : Shown) (line : Text) : Shown :=
  if startsWith line "data: ".toList then
    let raw := trim (line.drop 6)
    if raw.isEmpty then m
    else
      match loads .strict n raw with
      | some event => m.onEvent n event
      | none => m
  else m

/-- The decoder, the buffer and the message. -/
abbrev ReaderState := Utf8State × Text × Shown

/-- One round of the loop over `reader.read()`. -/
def readOn (n : Numerals) : ReaderState → List UInt8 → ReaderState :=
  readChunk '\n' (Shown.onLine n) decodeByte

/-- The message after these chunks. -/
def readAll (n : Numerals) (chunks : List (List UInt8)) : Shown :=
  (chunks.foldl (readOn n) ({}, [], {})).2.2

end Eidetic.Chat
