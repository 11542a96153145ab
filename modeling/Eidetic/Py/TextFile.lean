import Eidetic.Lib.Utf8
import Eidetic.Py.Text

/-!
# Files opened as text

`open(path, "r", encoding="utf-8", errors="replace")` decodes and translates
the ends of lines, `open(path, "w", encoding="utf-8")` encodes. What is read
and written again is the same bytes exactly when they are the encoding of a
text without `\r` (`utf8_readText_iff`).
-/

namespace Eidetic.Py

open Eidetic.Lib

/-- With `newline=None` every end of a line is read as `\n`. -/
def universalNewlines : Text → Text
  | [] => []
  | '\r' :: '\n' :: rest => '\n' :: universalNewlines rest
  | c :: rest => (if c = '\r' then '\n' else c) :: universalNewlines rest

/-- What `read` answers. -/
def readText (bytes : List UInt8) : Text := universalNewlines (decodeAll bytes)

theorem universalNewlines_of_not_mem {t : Text} (h : '\r' ∉ t) : universalNewlines t = t := by
  induction t with
  | nil => rfl
  | cons c t ih =>
    rw [List.mem_cons, not_or] at h
    obtain ⟨hc, ht⟩ := h
    rw [universalNewlines, if_neg fun heq => hc heq.symm, ih ht]
    rintro rest rfl _
    exact hc rfl

theorem not_mem_universalNewlines (t : Text) : '\r' ∉ universalNewlines t := by
  fun_induction universalNewlines t with
  | case1 => simp
  | case2 rest ih =>
    rw [List.mem_cons, not_or]
    exact ⟨by decide, ih⟩
  | case3 c rest _ ih =>
    rw [List.mem_cons, not_or]
    refine ⟨?_, ih⟩
    split
    next => decide
    next h => exact fun heq => h heq.symm

/-- A text without `\r` is read as it is. -/
theorem readText_utf8 {t : Text} (h : '\r' ∉ t) : readText (utf8 t) = t := by
  unfold readText
  rw [decodeAll_utf8, universalNewlines_of_not_mem h]

theorem utf8_readText_iff {bytes : List UInt8} :
    utf8 (readText bytes) = bytes ↔ ∃ t, '\r' ∉ t ∧ bytes = utf8 t := by
  constructor
  · intro h
    exact ⟨readText bytes, not_mem_universalNewlines _, h.symm⟩
  · rintro ⟨t, ht, rfl⟩
    rw [readText_utf8 ht]

end Eidetic.Py
