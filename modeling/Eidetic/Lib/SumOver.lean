import Mathlib.Algebra.Order.BigOperators.Group.List
import Mathlib.Algebra.Order.Monoid.Canonical.Defs

/-!
# The sum over the members of a list that count

Members that weigh nothing may count or not, a list can be taken apart by any
condition, and where nothing weighs less than zero a sum is zero only if every
member that counts weighs nothing.
-/

namespace Eidetic.Lib

variable {α M : Type*} [AddCommMonoid M]

/-- The weight of the members that count. -/
def sumOver (weight : α → M) (counts : α → Bool) (l : List α) : M :=
  ((l.filter counts).map weight).sum

variable {weight : α → M} {counts counts' : α → Bool}

@[simp] theorem sumOver_nil : sumOver weight counts [] = 0 := rfl

theorem sumOver_cons (x : α) (l : List α) :
    sumOver weight counts (x :: l) = (if counts x then weight x else 0) + sumOver weight counts l := by
  unfold sumOver
  rw [List.filter_cons]
  split
  next => rw [List.map_cons, List.sum_cons]
  next => rw [zero_add]

/-- Whether a member that weighs nothing counts makes no difference. -/
theorem sumOver_congr {l : List α} (h : ∀ x ∈ l, weight x = 0 ∨ counts x = counts' x) :
    sumOver weight counts l = sumOver weight counts' l := by
  induction l with
  | nil => rfl
  | cons x l ih =>
    rw [sumOver_cons, sumOver_cons, ih fun y hy => h y (List.mem_cons_of_mem _ hy)]
    rcases h x List.mem_cons_self with hzero | heq
    · rw [hzero, ite_self, ite_self]
    · rw [heq]

/-- The members that meet a condition, and the others. -/
theorem sumOver_split (part : α → Bool) (l : List α) :
    sumOver weight counts l =
      sumOver weight counts (l.filter part) + sumOver weight counts (l.filter fun x => !part x) := by
  induction l with
  | nil => exact (zero_add 0).symm
  | cons x l ih =>
    rw [sumOver_cons, ih]
    cases hx : part x with
    | true =>
      rw [List.filter_cons_of_pos hx, List.filter_cons_of_neg (by simp [hx]), sumOver_cons, add_assoc]
    | false =>
      rw [List.filter_cons_of_neg (by simp [hx]), List.filter_cons_of_pos (by simp [hx]), sumOver_cons]
      exact add_left_comm _ _ _

theorem sumOver_eq_zero_iff [PartialOrder M] [IsOrderedAddMonoid M] [CanonicallyOrderedAdd M]
    {l : List α} : sumOver weight counts l = 0 ↔ ∀ x ∈ l, counts x = true → weight x = 0 := by
  induction l with
  | nil => simp
  | cons x l ih =>
    rw [sumOver_cons, add_eq_zero, ih, List.forall_mem_cons]
    refine and_congr_left' ?_
    split
    next hx => simp [hx]
    next hx => simp [hx]

/-- Fewer members weigh no more. -/
theorem sumOver_le [PartialOrder M] [IsOrderedAddMonoid M] [CanonicallyOrderedAdd M] {l l' : List α}
    (hl : l.Sublist l') (hcounts : ∀ x ∈ l, counts x = true → counts' x = true) :
    sumOver weight counts l ≤ sumOver weight counts' l' := by
  induction hl with
  | slnil => exact le_refl _
  | cons x _ ih =>
    rw [sumOver_cons]
    exact (ih hcounts).trans (le_add_of_nonneg_left zero_le)
  | cons_cons x _ ih =>
    rw [sumOver_cons, sumOver_cons]
    refine add_le_add ?_ (ih fun y hy => hcounts y (List.mem_cons_of_mem _ hy))
    split
    next hx => rw [if_pos (hcounts x List.mem_cons_self hx)]
    next => exact zero_le

end Eidetic.Lib
