import Eidetic.Py.Text

/-!
# Numbers in texts

The text of a natural number, and texts that are put together from parts with
a separator: the part that does not have it can be told from the rest.
-/

namespace Eidetic.Py

/-- `str(n)`, for a number that is not negative. -/
def decimal (n : Nat) : Text := Nat.toDigits 10 n

theorem decimal_injective : Function.Injective decimal := by
  intro m n h
  have hvalue := congrArg (fun t => Nat.ofDigitChars 10 t 0) h
  dsimp only [decimal] at hvalue
  rwa [Nat.ofDigitChars_ten_toDigits, Nat.ofDigitChars_ten_toDigits] at hvalue

theorem isDigit_of_mem_decimal {n : Nat} {c : Char} (h : c ∈ decimal n) : c.isDigit = true :=
  Nat.isDigit_of_mem_toDigits (by omega) (by omega) h

theorem not_mem_decimal {n : Nat} {c : Char} (h : c.isDigit = false) : c ∉ decimal n := by
  intro hmem
  rw [isDigit_of_mem_decimal hmem] at h
  exact absurd h (by simp)

theorem isSpace_of_isDigit {c : Char} (h : c.isDigit = true) : isSpace c = false := by
  have hrange : 48 ≤ c.toNat ∧ c.toNat ≤ 57 := by
    unfold Char.isDigit at h
    obtain ⟨hlow, hhigh⟩ := Bool.and_eq_true_iff.mp h
    exact ⟨of_decide_eq_true hlow, of_decide_eq_true hhigh⟩
  unfold isSpace spaces
  generalize c.toNat = n at hrange
  rw [List.contains_eq_mem, decide_eq_false_iff_not]
  simp only [List.mem_cons, List.not_mem_nil, or_false]
  omega

/-- What stands before the first separator, and what after it. -/
theorem cut_first {c : Char} {a a' b b' : Text} (ha : c ∉ a) (ha' : c ∉ a')
    (h : a ++ c :: b = a' ++ c :: b') : a = a' ∧ b = b' := by
  rcases List.append_eq_append_iff.mp h with ⟨e, rfl, he⟩ | ⟨e, rfl, he⟩
  · cases e with
    | nil => exact ⟨(List.append_nil a).symm, (List.cons.inj he).2⟩
    | cons x e =>
      obtain ⟨rfl, _⟩ := List.cons.inj he
      exact absurd (List.mem_append_right a (List.mem_cons_self ..)) ha'
  · cases e with
    | nil => exact ⟨List.append_nil a', (List.cons.inj he).2.symm⟩
    | cons x e =>
      obtain ⟨rfl, _⟩ := List.cons.inj he
      exact absurd (List.mem_append_right a' (List.mem_cons_self ..)) ha

/-- What stands before the last separator, and what after it. -/
theorem cut_last {c : Char} {a a' b b' : Text} (hb : c ∉ b) (hb' : c ∉ b')
    (h : a ++ c :: b = a' ++ c :: b') : a = a' ∧ b = b' := by
  have hrev := congrArg List.reverse h
  simp only [List.reverse_append, List.reverse_cons, List.append_assoc, List.singleton_append] at hrev
  obtain ⟨hafter, hbefore⟩ := cut_first (fun hc => hb (List.mem_reverse.mp hc))
    (fun hc => hb' (List.mem_reverse.mp hc)) hrev
  exact ⟨List.reverse_inj.mp hbefore, List.reverse_inj.mp hafter⟩

end Eidetic.Py
