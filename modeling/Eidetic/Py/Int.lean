import Eidetic.Py.Spacing

/-!
# `int(text)`

Python's reading of a decimal integer: whitespace around it, one sign, digits
of any script with single underscores between them, and at most 4300 of them.
-/

namespace Eidetic.Py

/-- The value of a decimal digit of any script. -/
def decimalValue (c : Char) : Nat :=
  ((digitZeros.find? fun z => z ≤ c.toNat && c.toNat < z + 10).map (c.toNat - ·)).getD 0

/-- The digits of a number, without the underscores between them. -/
def readDigits (t : Text) : Option Nat :=
  let groups := t.splitOn '_'
  if (groups.all fun g => !g.isEmpty && g.all isDecimal) && groups.flatten.length ≤ 4300 then
    some (groups.flatten.foldl (fun n c => 10 * n + decimalValue c) 0)
  else none

/-- `int(text)`, `none` where it raises `ValueError`. -/
def readInt (text : Text) : Option Int :=
  match strip text with
  | '-' :: digits => (readDigits digits).map fun n => -(n : Int)
  | '+' :: digits => (readDigits digits).map fun n => (n : Int)
  | digits => (readDigits digits).map fun n => (n : Int)

/-- `int` ignores the whitespace around a number. -/
theorem readInt_strip (text : Text) : readInt (strip text) = readInt text := by
  unfold readInt
  rw [strip_strip]

example : readInt " +1_000\n".toList = some 1000 := by decide

end Eidetic.Py
