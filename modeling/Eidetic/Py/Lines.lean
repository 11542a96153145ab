import Eidetic.Py.Text

/-!
# The lines of a text

`str.splitlines()`. The two characters of a `\r\n` end one line.
-/

namespace Eidetic.Py

/-- A character that ends a line. -/
def isLineBoundary (c : Char) : Bool :=
  c.toNat ∈ [0x0a, 0x0b, 0x0c, 0x0d, 0x1c, 0x1d, 0x1e, 0x85, 0x2028, 0x2029]

/-- The lines from within one, with what there is of it, or right behind a `\r`. -/
def splitFrom (behind : Bool) (line : Text) : Text → List Text
  | [] => if line.isEmpty then [] else [line]
  | c :: rest =>
    if behind && c = '\n' then splitFrom false line rest
    else if isLineBoundary c then line :: splitFrom (c = '\r') [] rest
    else splitFrom false (line ++ [c]) rest

/-- `str.splitlines()`. -/
def splitlines (t : Text) : List Text := splitFrom false [] t

theorem splitFrom_line (start : Text) {line : Text} (h : ∀ c ∈ line, isLineBoundary c = false) (rest : Text) :
    splitFrom false start (line ++ '\n' :: rest) = (start ++ line) :: splitlines rest := by
  induction line generalizing start with
  | nil =>
    rw [List.append_nil]
    rfl
  | cons c line ih =>
    have hc : isLineBoundary c = false := h c List.mem_cons_self
    rw [List.cons_append, splitFrom, Bool.false_and, if_neg (by simp), hc, if_neg (by simp),
      ih _ fun d hd => h d (List.mem_cons_of_mem _ hd), List.append_assoc]
    rfl

/-- The first line is up to the line feed. -/
theorem splitlines_line {line : Text} (h : ∀ c ∈ line, isLineBoundary c = false) (rest : Text) :
    splitlines (line ++ '\n' :: rest) = line :: splitlines rest :=
  splitFrom_line [] h rest

end Eidetic.Py
