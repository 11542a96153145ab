import Mathlib.Data.List.Basic

/-!
# Lists put together from pieces

When the concatenation of pieces is no more than one of them: the others are
empty.
-/

namespace Eidetic.Lib

variable {α : Type*}

/-- The pieces with something in them. -/
def substantial (pieces : List (List α)) : List (List α) := pieces.filter fun piece => !piece.isEmpty

theorem substantial_flatten (pieces : List (List α)) :
    (substantial pieces).flatten = pieces.flatten := List.flatten_filter_not_isEmpty

theorem mem_substantial {pieces : List (List α)} {piece : List α} :
    piece ∈ substantial pieces ↔ piece ∈ pieces ∧ piece ≠ [] := by
  simp [substantial]

theorem substantial_eq_nil {pieces : List (List α)} (h : pieces.flatten = []) :
    substantial pieces = [] := by
  rw [List.flatten_eq_nil_iff] at h
  exact List.eq_nil_iff_forall_not_mem.mpr fun l hl =>
    (mem_substantial.mp hl).2 (h l (mem_substantial.mp hl).1)

/-- With one substantial piece at most, the whole is one of the pieces. -/
theorem flatten_mem_of_substantial {pieces : List (List α)} (hne : pieces ≠ [])
    (h : (substantial pieces).length ≤ 1) : pieces.flatten ∈ pieces := by
  rw [← substantial_flatten]
  match hsub : substantial pieces, h with
  | [], _ =>
    obtain ⟨piece, hpiece⟩ := List.exists_mem_of_ne_nil pieces hne
    have hempty : piece = [] := by
      by_contra hp
      have : piece ∈ substantial pieces := mem_substantial.mpr ⟨hpiece, hp⟩
      rw [hsub] at this
      exact absurd this List.not_mem_nil
    rw [hempty] at hpiece
    exact hpiece
  | [piece], _ =>
    have hmem : piece ∈ substantial pieces := by
      rw [hsub]
      exact List.mem_singleton.mpr rfl
    rw [List.flatten_singleton]
    exact (mem_substantial.mp hmem).1

/-- A whole that is no longer than one of its pieces has one substantial piece at most. -/
theorem substantial_of_flatten_length_le {pieces : List (List α)} {piece : List α}
    (hmem : piece ∈ pieces) (h : pieces.flatten.length ≤ piece.length) :
    (substantial pieces).length ≤ 1 := by
  by_cases hp : piece = []
  · rw [hp, List.length_nil, Nat.le_zero, List.length_eq_zero_iff] at h
    rw [substantial_eq_nil h]
    exact Nat.zero_le 1
  · obtain ⟨pre, post, hsplit⟩ := List.append_of_mem (mem_substantial.mpr ⟨hmem, hp⟩)
    have hnil : ∀ l ∈ pre ++ post, l = [] := by
      rw [← List.flatten_eq_nil_iff, ← List.length_eq_zero_iff]
      rw [← substantial_flatten, hsplit] at h
      simp only [List.flatten_append, List.flatten_cons, List.length_append] at h ⊢
      omega
    have hempty : pre ++ post = [] := by
      apply List.eq_nil_iff_forall_not_mem.mpr
      intro l hl
      have hsub : l ∈ substantial pieces := by
        rw [hsplit]
        rcases List.mem_append.mp hl with hl | hl
        · exact List.mem_append_left _ hl
        · exact List.mem_append_right _ (List.mem_cons_of_mem _ hl)
      exact (mem_substantial.mp hsub).2 (hnil l hl)
    obtain ⟨hpre, hpost⟩ := List.append_eq_nil_iff.mp hempty
    rw [hsplit, hpre, hpost]
    exact Nat.le_refl 1

end Eidetic.Lib
