import Mathlib.Data.List.Basic

/-!
# Where a separator can stand

A separator is a mark and a tail without the mark. Two separators of one length
cannot overlap in a text, so of two cuts of one text the second is the same cut,
stands after the first separator, or before it (`cut_cases`).
-/

namespace Eidetic.Lib

variable {α : Type*}

/-- A mark, and a tail of so many entries without the mark. -/
structure Separator (mark : α) (n : Nat) where
  tail : List α
  length : tail.length = n
  unmarked : mark ∉ tail

variable {mark : α} {n : Nat}

def Separator.text (s : Separator mark n) : List α := mark :: s.tail

/-- Of two separators the one that starts later starts after the other's end. -/
theorem after_separator {s s' : Separator mark n} {b c b' : List α} (hc : c ≠ [])
    (h : s.text ++ b = c ++ s'.text ++ b') : ∃ x, c = s.text ++ x ∧ b = x ++ s'.text ++ b' := by
  cases c with
  | nil => exact absurd rfl hc
  | cons first c =>
    obtain ⟨rfl, htail⟩ : mark = first ∧ s.tail ++ b = c ++ (s'.text ++ b') := by
      simpa [Separator.text] using h
    rcases List.append_eq_append_iff.mp htail with ⟨x, hx, hb⟩ | ⟨x, hx, hb⟩
    · exact ⟨x, congrArg (mark :: ·) hx, by rw [hb, List.append_assoc]⟩
    · -- the other separator would start within the tail
      cases x with
      | nil =>
        refine ⟨[], ?_, hb.symm⟩
        rw [List.append_nil] at hx ⊢
        exact congrArg (mark :: ·) hx.symm
      | cons y x =>
        obtain ⟨rfl, _⟩ : mark = y ∧ s'.tail ++ b' = x ++ b := by
          simpa [Separator.text] using hb
        have hmem : mark ∈ s.tail := by
          rw [hx]
          exact List.mem_append_right c (List.mem_cons_self ..)
        exact absurd hmem s.unmarked

/-- Two cuts of one text. -/
theorem cut_cases {s s' : Separator mark n} {a b a' b' : List α}
    (h : a ++ s.text ++ b = a' ++ s'.text ++ b') :
    (a = a' ∧ s.text = s'.text ∧ b = b') ∨
      (∃ x, a' = a ++ s.text ++ x ∧ b = x ++ s'.text ++ b') ∨
      (∃ x, a = a' ++ s'.text ++ x ∧ b' = x ++ s.text ++ b) := by
  have hlength : s.text.length = s'.text.length := by
    rw [Separator.text, Separator.text, List.length_cons, List.length_cons, s.length, s'.length]
  rw [List.append_assoc, List.append_assoc] at h
  rcases List.append_eq_append_iff.mp h with ⟨c, hc, hrest⟩ | ⟨c, hc, hrest⟩
  · by_cases hnil : c = []
    · rw [hnil, List.nil_append] at hrest
      obtain ⟨hs, hb⟩ := List.append_inj hrest hlength
      exact Or.inl ⟨by rw [hc, hnil, List.append_nil], hs, hb⟩
    · obtain ⟨x, hx, hb⟩ := after_separator hnil (by rw [hrest, List.append_assoc])
      exact Or.inr (Or.inl ⟨x, by rw [hc, hx, List.append_assoc], hb⟩)
  · by_cases hnil : c = []
    · rw [hnil, List.nil_append] at hrest
      obtain ⟨hs, hb⟩ := List.append_inj hrest hlength.symm
      exact Or.inl ⟨by rw [hc, hnil, List.append_nil], hs.symm, hb.symm⟩
    · obtain ⟨x, hx, hb⟩ := after_separator hnil (by rw [hrest, List.append_assoc])
      exact Or.inr (Or.inr ⟨x, by rw [hc, hx, List.append_assoc], hb⟩)

end Eidetic.Lib
