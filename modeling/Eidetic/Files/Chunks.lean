import Eidetic.Py.Text

/-!
# `chunk_text`

A text is cut into paragraphs, those that are too long into sentences, and
sentences that are too long into words. The units are put together again into
chunks, each with the end of the one before.

`_split_semantic` works in levels, each with its own pattern, and a level hands
what is too long to the next one. The patterns are written out as recursions on
the text, with the whitespace that they consume. `_chunk_units` is a loop with a
buffer of units and its cost; it is `chunksFrom` here, by recursion on the
units, which starts a chunk with the tail of the one before. The sizes are
arguments, as the lemmas about the loop do not depend on them. What the levels
keep is in `Files.Units`, what the loop keeps in `Files.Overlap`.
-/

namespace Eidetic.Files

open Eidetic.Py

def chunkSize : Nat := 1600

def chunkOverlap : Nat := 200

/-! ## Units -/

/-- `re.split(r"\n{2,}", text)` from inside a piece, after some line breaks. -/
def splitParagraphsAux : Text → Text → Nat → List Text
  | [], piece, breaks =>
    if 2 ≤ breaks then [piece, []] else [piece ++ List.replicate breaks '\n']
  | c :: rest, piece, breaks =>
    if c = '\n' then splitParagraphsAux rest piece (breaks + 1)
    else if 2 ≤ breaks then piece :: splitParagraphsAux rest [c] 0
    else splitParagraphsAux rest (piece ++ List.replicate breaks '\n' ++ [c]) 0

def splitParagraphs (text : Text) : List Text := splitParagraphsAux text [] 0

/-- `[.!?]`. -/
def endsSentence (c : Char) : Bool := c == '.' || c == '!' || c == '?'

/-- `re.split(r"(?<=[.!?])\s+", para)` from inside a sentence, or from the space
after one. -/
def splitSentencesAux : Text → Text → Bool → List Text
  | [], sentence, gap => if gap then [sentence, []] else [sentence]
  | c :: rest, sentence, true =>
    if isSpace c then splitSentencesAux rest sentence true
    else sentence :: splitSentencesAux rest [c] false
  | c :: rest, sentence, false =>
    if isSpace c && sentence.getLast?.any endsSentence then splitSentencesAux rest sentence true
    else splitSentencesAux rest (sentence ++ [c]) false

def splitSentences (para : Text) : List Text := splitSentencesAux para [] false

/-- The loop over the words of a sentence, with `buf` and `buf_len`. -/
def packWords : List Text → List Text → Nat → List Text
  | [], buf, _ => if buf.isEmpty then [] else [joinWords buf]
  | word :: rest, buf, bufLen =>
    if chunkSize < bufLen + word.length + 1 && !buf.isEmpty then
      joinWords buf :: packWords rest [word] (word.length + 1)
    else packWords rest (buf ++ [word]) (bufLen + (word.length + 1))

/-- The units of a sentence. -/
def sentenceUnits (sent : Text) : List Text :=
  let sent := strip sent
  if sent.isEmpty then []
  else if sent.length ≤ chunkSize then [sent]
  else packWords (words sent) [] 0

/-- The units of a paragraph. -/
def paragraphUnits (para : Text) : List Text :=
  let para := strip para
  if para.isEmpty then []
  else if para.length ≤ chunkSize then [para]
  else (splitSentences para).flatMap sentenceUnits

/-- `_split_semantic`. -/
def splitSemantic (text : Text) : List Text := (splitParagraphs text).flatMap paragraphUnits

/-! ## Chunks -/

/-- `[.!?\n]`. -/
def endsUnit (c : Char) : Bool := endsSentence c || c == '\n'

/-- What follows the first `(?<=[.!?\n])` from which there is an `\s*\S`. -/
def afterBreak : Text → Option Text
  | [] => none
  | c :: rest => if endsUnit c && rest.any (fun x => !isSpace x) then some rest else afterBreak rest

/-- `chunk[-n:]`, which for 0 is all of it. -/
def lastChars (n : Nat) (chunk : Text) : Text :=
  if n = 0 then chunk else chunk.drop (chunk.length - n)

/-- The end of a chunk that the next one begins with. -/
def overlapTail (overlap : Nat) (chunk : Text) : Text :=
  let tail := if overlap < chunk.length then lastChars overlap chunk else chunk
  strip ((afterBreak tail).getD tail)

/-- The loop of `_merge_with_overlap`, with `buf` and `buf_len`. -/
def mergeLoop (size overlap : Nat) : List Text → List Text → Nat → List Text
  | [], buf, _ =>
    if buf.isEmpty then []
    else if (strip (joinLines buf)).isEmpty then []
    else [strip (joinLines buf)]
  | unit :: rest, buf, bufLen =>
    let sep := if buf.isEmpty then 0 else 1
    if !buf.isEmpty && size < bufLen + sep + unit.length then
      let chunk := joinLines buf
      let tail := overlapTail overlap chunk
      chunk :: mergeLoop size overlap rest ((if tail.isEmpty then [] else [tail]) ++ [unit])
        (tail.length + (sep + unit.length))
    else mergeLoop size overlap rest (buf ++ [unit]) (bufLen + (sep + unit.length))

def mergeWithOverlap (units : List Text) (size overlap : Nat) : List Text :=
  mergeLoop size overlap units [] 0

def chunkText (text : Text) : List Text :=
  if (strip text).isEmpty then []
  else mergeWithOverlap (splitSemantic text) chunkSize chunkOverlap

end Eidetic.Files
