import Mathlib.Algebra.BigOperators.Group.Finset.Piecewise
import Mathlib.Data.List.Count

/-!
# Rationed lists

Elements are let through as long as fewer elements with the same key have come
before than the limit of the key allows. Of a key that comes `n` times, the
limit or `n` are let through, whichever is less (`count_rationed`).
-/

namespace Eidetic.Lib

variable {α β : Type} [BEq α] (key : β → α) (limit : α → Nat)

/-- What is let through of a list after the elements of `before`. -/
def rationedAfter (before : List β) : List β → List β
  | [] => []
  | b :: rest =>
    (if (before.map key).count (key b) < limit (key b) then [b] else [])
      ++ rationedAfter (before ++ [b]) rest

def rationed (xs : List β) : List β := rationedAfter key limit [] xs

theorem rationedAfter_append (before xs ys : List β) :
    rationedAfter key limit before (xs ++ ys)
      = rationedAfter key limit before xs ++ rationedAfter key limit (before ++ xs) ys := by
  induction xs generalizing before with
  | nil => simp [rationedAfter]
  | cons x xs ih =>
    rw [List.cons_append, rationedAfter, rationedAfter, ih, List.append_assoc, List.append_assoc,
      List.singleton_append]

@[simp] theorem rationed_nil : rationed key limit [] = [] := rfl

theorem rationed_concat (xs : List β) (b : β) :
    rationed key limit (xs ++ [b]) = rationed key limit xs
      ++ if (xs.map key).count (key b) < limit (key b) then [b] else [] := by
  unfold rationed
  rw [rationedAfter_append, rationedAfter, rationedAfter, List.append_nil, List.nil_append]

variable {key limit}

theorem rationed_let {xs : List β} {b : β} (h : (xs.map key).count (key b) < limit (key b)) :
    rationed key limit (xs ++ [b]) = rationed key limit xs ++ [b] := by
  rw [rationed_concat, if_pos h]

theorem rationed_stop {xs : List β} {b : β} (h : limit (key b) ≤ (xs.map key).count (key b)) :
    rationed key limit (xs ++ [b]) = rationed key limit xs := by
  rw [rationed_concat, if_neg (Nat.not_lt.mpr h), List.append_nil]

theorem rationed_sublist (xs : List β) : (rationed key limit xs).Sublist xs := by
  induction xs using List.reverseRecOn with
  | nil => exact List.Sublist.refl _
  | append_singleton xs b ih =>
    rw [rationed_concat]
    split
    next => exact ih.append (List.Sublist.refl _)
    next => exact ih.append (List.nil_sublist _)

/-- How often a key is let through. -/
theorem count_rationed [LawfulBEq α] (xs : List β) (a : α) :
    ((rationed key limit xs).map key).count a = min (limit a) ((xs.map key).count a) := by
  induction xs using List.reverseRecOn with
  | nil => simp
  | append_singleton xs b ih =>
    rw [rationed_concat]
    by_cases hkey : key b = a
    · subst hkey
      split
      next h =>
        simp only [List.map_append, List.count_append, ih, List.map_cons, List.map_nil,
          List.count_singleton_self]
        omega
      next h =>
        simp only [List.map_append, List.count_append, ih, List.map_cons, List.map_nil,
          List.count_singleton_self, List.count_nil]
        omega
    · have hnone : [key b].count a = 0 := List.count_eq_zero.mpr (by simpa using Ne.symm hkey)
      split
      next h => simp only [List.map_append, List.count_append, ih, List.map_cons, List.map_nil,
        hnone, Nat.add_zero]
      next h => simp only [List.map_append, List.count_append, ih, List.map_cons, List.map_nil,
        hnone, List.count_nil, Nat.add_zero]

/-- A list counted group by group. -/
theorem count_groups {γ : Type} [BEq γ] [LawfulBEq γ] (xs : List (Nat × γ)) {n : Nat}
    (h : ∀ x ∈ xs, x.1 < n) (c : γ) :
    (xs.map (·.2)).count c = ∑ k ∈ Finset.range n, xs.count (k, c) := by
  induction xs with
  | nil => simp
  | cons x xs ih =>
    obtain ⟨k, d⟩ := x
    have hk : k < n := h (k, d) (List.mem_cons_self ..)
    have hsum : ∑ i ∈ Finset.range n, (if ((k, d) == (i, c)) = true then 1 else 0)
        = if (d == c) = true then 1 else 0 := by
      by_cases hd : d = c
      · simp [hd, hk]
      · have hne : ∀ i, ((k, d) == (i, c)) = false := fun i => by simp [hd]
        simp [hne, hd]
    simp only [List.map_cons, List.count_cons, Finset.sum_add_distrib, hsum,
      ih fun x hx => h x (List.mem_cons_of_mem _ hx)]

end Eidetic.Lib
