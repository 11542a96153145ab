import Mathlib.Order.Monotone.Basic

/-!
# Staged eviction

Candidates `1, 2, …, top` of growing cost: the higher the stage, the more is
kept. `cutAt` is the highest stage that fits a budget, `0` when none does.
For a monotone cost it is characterised by `le_cutAt_iff`: a stage is at most
the cut exactly when it fits. Everything a trimming pass promises about what
it keeps follows from that one equivalence.
-/

namespace Eidetic.Lib

variable (cost : Nat → Nat) (budget : Int)

/-- The highest stage `≤ top` whose cost fits, `0` if there is none. -/
def cutAt : Nat → Nat
  | 0 => 0
  | t + 1 => if (cost (t + 1) : Int) ≤ budget then t + 1 else cutAt t

variable {cost budget}

theorem cutAt_le (cost : Nat → Nat) (budget : Int) (top : Nat) :
    cutAt cost budget top ≤ top := by
  induction top with
  | zero => exact Nat.le_refl _
  | succ t ih =>
    unfold cutAt
    split
    next => exact Nat.le_refl _
    next => exact Nat.le_succ_of_le ih

/-- The cut, when it is a stage at all, fits. -/
theorem cutAt_fits {top : Nat} (h : 1 ≤ cutAt cost budget top) :
    (cost (cutAt cost budget top) : Int) ≤ budget := by
  induction top with
  | zero => exact absurd h (by simp [cutAt])
  | succ t ih =>
    unfold cutAt at h ⊢
    split at h
    next hfit => rw [if_pos hfit]; exact hfit
    next hno => rw [if_neg hno]; exact ih h

/-- Every stage that fits is at most the cut. -/
theorem le_cutAt {top t : Nat} (ht : t ≤ top) (hfit : (cost t : Int) ≤ budget) :
    t ≤ cutAt cost budget top := by
  induction top with
  | zero => exact ht
  | succ n ih =>
    unfold cutAt
    split
    next => exact ht
    next hno =>
      rcases Nat.lt_or_ge n t with hlt | hge
      · have : t = n + 1 := by omega
        exact absurd (this ▸ hfit) hno
      · exact ih hge

/-- Stages at the top that do not fit can be left out. -/
theorem cutAt_skip {top t : Nat} (ht : t ≤ top)
    (h : ∀ s, t < s → s ≤ top → ¬ (cost s : Int) ≤ budget) :
    cutAt cost budget top = cutAt cost budget t := by
  induction top with
  | zero => rw [Nat.le_zero.mp ht]
  | succ n ih =>
    rcases Nat.eq_or_lt_of_le ht with heq | hlt
    · rw [heq]
    · rw [cutAt, if_neg (h (n + 1) hlt (Nat.le_refl _))]
      exact ih (by omega) fun s hs hsn => h s hs (by omega)

/-- A top stage that fits is the cut. -/
theorem cutAt_eq_top {top : Nat} (hfit : (cost top : Int) ≤ budget) :
    cutAt cost budget top = top :=
  Nat.le_antisymm (cutAt_le _ _ top) (le_cutAt (Nat.le_refl _) hfit)

/-- The stages up to the cut are exactly the ones that fit. -/
theorem le_cutAt_iff (hmono : Monotone cost) {top t : Nat} (h1 : 1 ≤ t) (ht : t ≤ top) :
    t ≤ cutAt cost budget top ↔ (cost t : Int) ≤ budget := by
  constructor
  · intro hle
    have hcut : (cost (cutAt cost budget top) : Int) ≤ budget := cutAt_fits (by omega)
    have := hmono hle
    omega
  · exact le_cutAt ht

/-- A larger budget never lowers the cut. -/
theorem cutAt_mono (cost : Nat → Nat) {budget' : Int} (h : budget ≤ budget') (top : Nat) :
    cutAt cost budget top ≤ cutAt cost budget' top := by
  rcases Nat.eq_zero_or_pos (cutAt cost budget top) with hz | hpos
  · omega
  · have hfit := cutAt_fits hpos
    exact le_cutAt (cutAt_le _ _ top) (by omega)

end Eidetic.Lib
