import Eidetic.Lib.While
import Eidetic.Py.Text

/-!
# `content_filter.py`: the copy of an answer that is stored

`compress_tool_dumps` runs three passes over the text of an answer before it
is written to `Message.content`: one for each kind of code fence, then one for
blocks of line-numbered lines. Each pass is a `while i < len(lines)` over the
lines of the text; the state of a pass is `Scan`.

The fence passes advance in every round (`fenceBody_lt`), so they are total
functions. The line-numbered pass need not return, so its loop keeps its fuel
(`Progress.lean` says exactly when it returns).

`isidentifier` is Python's `str.isidentifier`, a Unicode table nothing here
depends on: it is a parameter.

A body of the source's `while` is a function from one `Scan` to the next, and
the loop is `whileFuel` of the library over it, so that what one round does and
when the loop returns are separate questions. The fuel is an argument of
`compressToolDumps`, as one of the passes may use up any amount of it.
-/

namespace Eidetic.Filter

open Eidetic.Lib Eidetic.Py

/-- `_MAX_BLOCK_LINES`. -/
def maxBlockLines : Nat := 20

/-- `_MAX_LINE_LENGTH`. -/
def maxLineLength : Nat := 120

/-- The state of a pass: the line index and the lines written so far. -/
structure Scan where
  i : Nat
  result : List Text
deriving DecidableEq, Repr

/-- The placeholder line of a dropped block. -/
def compressedNote (label : Text) (n : Nat) : Text :=
  "[~s3~ ".toList ++ label ++ ": ".toList ++ (toString n).toList
    ++ " lines, compressed — not shown in history]".toList

/-- `str.isidentifier` on ASCII text. -/
def asciiIdentifier : Text → Bool
  | [] => false
  | c :: cs => (c.isAlpha || c == '_') && cs.all fun x => x.isAlphanum || x == '_'

/-! ## The code-fence passes -/

/-- Whether a stripped line opens a block of this fence. -/
def fenceOpens (isidentifier : Text → Bool) (fence stripped : Text) : Bool :=
  stripped == fence
    || (startsWith stripped fence && isidentifier (lstrip (stripped.drop fence.length)))

/-- The index of the closing fence after line `i`, or `i` itself when the
block is never closed. -/
def fenceEnd (lines : List Text) (fence : Text) (i : Nat) : Nat :=
  ((List.range' (i + 1) (lines.length - (i + 1))).find?
    fun j => strip (lines.getD j []) == fence).getD i

/-- One round of `_collapse_code_fence_block`. -/
def fenceBody (isidentifier : Text → Bool) (lines : List Text) (fence label : Text)
    (s : Scan) : Scan :=
  let line := lines.getD s.i []
  let stripped := strip line
  let keepLine : Scan := ⟨s.i + 1, s.result ++ [line]⟩
  if fenceOpens isidentifier fence stripped then
    let lang := strip (stripped.drop fence.length)
    let j := fenceEnd lines fence s.i
    let contentLines := slice lines (s.i + 1) j
    if maxBlockLines < contentLines.length then
      ⟨j + 1, s.result ++ [fence ++ lang, compressedNote label contentLines.length, fence]⟩
    else keepLine
  else keepLine

theorem le_fenceEnd (lines : List Text) (fence : Text) (i : Nat) :
    i ≤ fenceEnd lines fence i := by
  unfold fenceEnd
  cases h : (List.range' (i + 1) (lines.length - (i + 1))).find?
      fun j => strip (lines.getD j []) == fence with
  | none => exact Nat.le_refl _
  | some j =>
    have hj := List.mem_range'_1.mp (List.mem_of_find?_eq_some h)
    simp only [Option.getD_some]
    omega

/-- Every round of a fence pass moves the line index forward. -/
theorem fenceBody_lt (isidentifier : Text → Bool) (lines : List Text)
    (fence label : Text) (s : Scan) :
    s.i < (fenceBody isidentifier lines fence label s).i := by
  have hend := le_fenceEnd lines fence s.i
  unfold fenceBody
  dsimp only
  split
  next =>
    split
    next => exact Nat.lt_succ_of_le hend
    next => exact Nat.lt_succ_self _
  next => exact Nat.lt_succ_self _

/-- The loop test shared by the three passes: `i < len(lines)`. -/
def inLines (lines : List Text) (s : Scan) : Bool := s.i < lines.length

theorem inLines_iff {lines : List Text} {s : Scan} :
    inLines lines s = true ↔ s.i < lines.length := by
  simp [inLines]

theorem fenceBody_remaining (isidentifier : Text → Bool) (lines : List Text)
    (fence label : Text) (s : Scan) (h : inLines lines s = true) :
    lines.length - (fenceBody isidentifier lines fence label s).i < lines.length - s.i := by
  have := fenceBody_lt isidentifier lines fence label s
  have := inLines_iff.mp h
  omega

/-- `_collapse_code_fence_block`. -/
def collapseCodeFenceBlock (isidentifier : Text → Bool) (text fence label : Text) : Text :=
  let lines := splitLines text
  joinLines (runLoop (inLines lines) (fenceBody isidentifier lines fence label)
    (fun s => lines.length - s.i)
    (fenceBody_remaining isidentifier lines fence label) ⟨0, []⟩).result

/-! ## The line-numbered pass -/

/-- Where a match of `^\s*\d{1,4}[:.]\s` ends, `none` when there is none.
Whitespace, digits and `:`/`.` are disjoint, so the greedy runs are the only
ones that can match. -/
def matchNumbered (line : Text) : Option Nat :=
  let ws := line.takeWhile isSpace
  let rest := line.dropWhile isSpace
  let ds := rest.takeWhile isDecimal
  match rest.dropWhile isDecimal with
  | c :: s :: _ =>
    if 1 ≤ ds.length ∧ ds.length ≤ 4 ∧ (c = ':' ∨ c = '.') ∧ isSpace s = true then
      some (ws.length + ds.length + 2)
    else none
  | _ => none

/-- The inner `while`: it consumes lines as long as their first
`_MAX_LINE_LENGTH` characters still match. -/
def numberedEnd (lines : List Text) (i : Nat) : Nat :=
  if _h : i < lines.length then
    if (matchNumbered (lines[i].take maxLineLength)).isSome then numberedEnd lines (i + 1)
    else i
  else i
termination_by lines.length - i

/-- One round of `_collapse_line_numbered_blocks`. The outer test looks at the
whole line. -/
def numberedBody (lines : List Text) (s : Scan) : Scan :=
  let line := lines.getD s.i []
  if (matchNumbered line).isSome then
    let j := numberedEnd lines s.i
    let blockLines := j - s.i
    if maxBlockLines < blockLines then
      ⟨j, s.result ++ [compressedNote "numbered-block".toList blockLines]⟩
    else ⟨j, s.result ++ slice lines s.i j⟩
  else ⟨s.i + 1, s.result ++ [line]⟩

/-- `_collapse_line_numbered_blocks`, with at most `fuel` tests of its outer
loop. -/
def collapseLineNumberedBlocks (fuel : Nat) (text : Text) : Option Text :=
  let lines := splitLines text
  (whileFuel (inLines lines) (numberedBody lines) fuel ⟨0, []⟩).map
    fun s => joinLines s.result

/-! ## The filter -/

/-- The text after the two code-fence passes. -/
def collapseFences (isidentifier : Text → Bool) (text : Text) : Text :=
  let result := collapseCodeFenceBlock isidentifier text "```".toList "code-block".toList
  collapseCodeFenceBlock isidentifier result "~~~".toList "code-block".toList

/-- `compress_tool_dumps` (its `max_block_lines` argument is never read). -/
def compressToolDumps (isidentifier : Text → Bool) (fuel : Nat) (text : Text) :
    Option Text :=
  if text = [] ∨ text.length < 2000 then some text
  else collapseLineNumberedBlocks fuel (collapseFences isidentifier text)

end Eidetic.Filter
