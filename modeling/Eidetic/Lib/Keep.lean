import Mathlib.Algebra.GroupWithZero.Nat
import Mathlib.Algebra.Order.BigOperators.Group.List
import Mathlib.Algebra.Order.Group.Nat

/-!
# Keep flags over a list

`keepBy keep xs` is `[x for i, x in enumerate(xs) if keep[i]]`, the flags being
a function of the position. The lemmas are the ones a trimming pass needs:
fewer flags keep a sublist, the flags of a part are the flags shifted, and
what every flag keeps of one kind of element is the whole of that kind.
-/

namespace Eidetic.Lib

variable {α : Type}

/-- The elements whose position is flagged. -/
def keepBy : (Nat → Bool) → List α → List α
  | _, [] => []
  | keep, x :: xs =>
    if keep 0 then x :: keepBy (fun i => keep (i + 1)) xs
    else keepBy (fun i => keep (i + 1)) xs

@[simp] theorem keepBy_nil (keep : Nat → Bool) : keepBy keep ([] : List α) = [] := rfl

theorem keepBy_cons_pos {keep : Nat → Bool} (h : keep 0 = true) (x : α) (xs : List α) :
    keepBy keep (x :: xs) = x :: keepBy (fun i => keep (i + 1)) xs := by
  rw [keepBy, if_pos h]

theorem keepBy_cons_neg {keep : Nat → Bool} (h : keep 0 = false) (x : α) (xs : List α) :
    keepBy keep (x :: xs) = keepBy (fun i => keep (i + 1)) xs := by
  rw [keepBy, if_neg (by simp [h])]

theorem keepBy_sublist : ∀ (keep : Nat → Bool) (xs : List α),
    (keepBy keep xs).Sublist xs := by
  intro keep xs
  induction xs generalizing keep with
  | nil => exact List.Sublist.refl _
  | cons x xs ih =>
    cases h : keep 0 with
    | true => rw [keepBy_cons_pos h]; exact (ih _).cons_cons x
    | false => rw [keepBy_cons_neg h]; exact (ih _).cons x

/-- Fewer flags keep a sublist. -/
theorem keepBy_mono : ∀ {keep keep' : Nat → Bool} (xs : List α),
    (∀ i, i < xs.length → keep i = true → keep' i = true) →
    (keepBy keep xs).Sublist (keepBy keep' xs) := by
  intro keep keep' xs
  induction xs generalizing keep keep' with
  | nil => intro _; exact List.Sublist.refl _
  | cons x xs ih =>
    intro h
    have htail : (keepBy (fun i => keep (i + 1)) xs).Sublist (keepBy (fun i => keep' (i + 1)) xs) :=
      ih fun i hi hk => h (i + 1) (Nat.succ_lt_succ hi) hk
    cases hk : keep 0 with
    | true =>
      rw [keepBy_cons_pos hk, keepBy_cons_pos (h 0 (Nat.succ_pos _) hk)]
      exact htail.cons_cons x
    | false =>
      rw [keepBy_cons_neg hk]
      cases hk' : keep' 0 with
      | true => rw [keepBy_cons_pos hk']; exact htail.cons x
      | false => rw [keepBy_cons_neg hk']; exact htail

/-- Only the flags inside the list matter. -/
theorem keepBy_congr : ∀ {keep keep' : Nat → Bool} (xs : List α),
    (∀ i, i < xs.length → keep i = keep' i) → keepBy keep xs = keepBy keep' xs := by
  intro keep keep' xs
  induction xs generalizing keep keep' with
  | nil => intro _; rfl
  | cons x xs ih =>
    intro h
    have h0 := h 0 (Nat.succ_pos _)
    have htail : keepBy (fun i => keep (i + 1)) xs = keepBy (fun i => keep' (i + 1)) xs :=
      ih fun i hi => h (i + 1) (Nat.succ_lt_succ hi)
    cases hk : keep 0 with
    | true => rw [keepBy_cons_pos hk, keepBy_cons_pos (h0 ▸ hk), htail]
    | false => rw [keepBy_cons_neg hk, keepBy_cons_neg (h0 ▸ hk), htail]

/-- With every flag set the list is kept whole. -/
theorem keepBy_all : ∀ {keep : Nat → Bool} (xs : List α),
    (∀ i, i < xs.length → keep i = true) → keepBy keep xs = xs := by
  intro keep xs
  induction xs generalizing keep with
  | nil => intro _; rfl
  | cons x xs ih =>
    intro h
    rw [keepBy_cons_pos (h 0 (Nat.succ_pos _)),
      ih fun i hi => h (i + 1) (Nat.succ_lt_succ hi)]

theorem keepBy_append : ∀ (keep : Nat → Bool) (xs ys : List α),
    keepBy keep (xs ++ ys)
      = keepBy keep xs ++ keepBy (fun i => keep (xs.length + i)) ys := by
  intro keep xs ys
  induction xs generalizing keep with
  | nil => simp
  | cons x xs ih =>
    have hshift : (fun i => keep ((x :: xs).length + i))
        = fun i => keep (xs.length + i + 1) := by
      funext i
      rw [List.length_cons, Nat.add_right_comm]
    cases h : keep 0 with
    | true => rw [List.cons_append, keepBy_cons_pos h, keepBy_cons_pos h, ih, hshift]; rfl
    | false => rw [List.cons_append, keepBy_cons_neg h, keepBy_cons_neg h, ih, hshift]

theorem mem_keepBy : ∀ {keep : Nat → Bool} {xs : List α} {x : α},
    x ∈ keepBy keep xs ↔ ∃ i, keep i = true ∧ xs[i]? = some x := by
  intro keep xs x
  induction xs generalizing keep with
  | nil => simp
  | cons y ys ih =>
    have hsplit : (∃ i, keep i = true ∧ (y :: ys)[i]? = some x) ↔
        (keep 0 = true ∧ x = y) ∨ ∃ i, keep (i + 1) = true ∧ ys[i]? = some x := by
      constructor
      · intro ⟨i, hk, hi⟩
        cases i with
        | zero => exact Or.inl ⟨hk, (Option.some.inj hi).symm⟩
        | succ i => exact Or.inr ⟨i, hk, by simpa using hi⟩
      · intro h
        rcases h with ⟨hk, rfl⟩ | ⟨i, hk, hi⟩
        · exact ⟨0, hk, rfl⟩
        · exact ⟨i + 1, hk, by simpa using hi⟩
    rw [hsplit]
    cases h : keep 0 with
    | true => rw [keepBy_cons_pos h, List.mem_cons, ih]; simp
    | false => rw [keepBy_cons_neg h, ih]; simp

/-- A kind of element that is never dropped is kept whole and in order. -/
theorem filter_keepBy (p : α → Bool) : ∀ {keep : Nat → Bool} (xs : List α),
    (∀ i x, xs[i]? = some x → p x = true → keep i = true) →
    (keepBy keep xs).filter p = xs.filter p := by
  intro keep xs
  induction xs generalizing keep with
  | nil => intro _; rfl
  | cons x xs ih =>
    intro h
    have htail : (keepBy (fun i => keep (i + 1)) xs).filter p = xs.filter p :=
      ih fun i y hy hp => h (i + 1) y (by simpa using hy) hp
    cases hk : keep 0 with
    | true => rw [keepBy_cons_pos hk, List.filter_cons, List.filter_cons, htail]
    | false =>
      have hx : p x = false := by
        cases hp : p x with
        | false => rfl
        | true => exact absurd (h 0 x rfl hp) (by simp [hk])
      rw [keepBy_cons_neg hk, htail, List.filter_cons_of_neg (by simp [hx])]

/-- A last element that is kept stays the last one. -/
theorem keepBy_getLast? {keep : Nat → Bool} {xs : List α} (h : keep (xs.length - 1) = true) :
    (keepBy keep xs).getLast? = xs.getLast? := by
  rcases List.eq_nil_or_concat xs with hnil | ⟨front, last, hxs⟩
  · rw [hnil]; rfl
  · have hlen : xs.length - 1 = front.length := by simp [hxs]
    rw [hlen] at h
    rw [hxs, List.concat_eq_append, keepBy_append, keepBy_cons_pos (by simpa using h)]
    simp

/-- Two neighbours that are both kept stay neighbours. -/
theorem keepBy_pair {keep : Nat → Bool} {xs : List α} {i : Nat} {x y : α}
    (hx : xs[i]? = some x) (hy : xs[i + 1]? = some y)
    (hki : keep i = true) (hkj : keep (i + 1) = true) :
    ∃ post, keepBy keep xs = keepBy keep (xs.take i) ++ x :: y :: post := by
  obtain ⟨hi, hxi⟩ := List.getElem?_eq_some_iff.mp hx
  obtain ⟨hj, hyj⟩ := List.getElem?_eq_some_iff.mp hy
  have hsplit : xs.take i ++ x :: y :: xs.drop (i + 2) = xs := by
    rw [← hxi, ← hyj, ← List.drop_eq_getElem_cons hj, ← List.drop_eq_getElem_cons hi,
      List.take_append_drop]
  have hlen : (xs.take i).length = i := by rw [List.length_take]; omega
  have happ := keepBy_append keep (xs.take i) (x :: y :: xs.drop (i + 2))
  rw [hsplit, hlen, keepBy_cons_pos (by simpa using hki),
    keepBy_cons_pos (by simpa [Nat.add_comm] using hkj)] at happ
  exact ⟨_, happ⟩

/-- Changing elements that `p` rejects before and after does not show in what
`p` accepts. -/
theorem filter_mapIdx (p : α → Bool) : ∀ {f : Nat → α → α} (xs : List α),
    (∀ i x, xs[i]? = some x → f i x = x ∨ (p x = false ∧ p (f i x) = false)) →
    (xs.mapIdx f).filter p = xs.filter p := by
  intro f xs
  induction xs generalizing f with
  | nil => intro _; rfl
  | cons x xs ih =>
    intro h
    have htail : (xs.mapIdx fun i => f (i + 1)).filter p = xs.filter p :=
      ih fun i y hy => h (i + 1) y (by simpa using hy)
    rw [List.mapIdx_cons, List.filter_cons, List.filter_cons, htail]
    rcases h 0 x rfl with heq | ⟨hx, hfx⟩
    · rw [heq]
    · rw [hx, hfx]
      rfl

/-! ## Weights -/

/-- The summed weight of a list. -/
def totalWeight (w : α → Nat) (xs : List α) : Nat := (xs.map w).sum

theorem totalWeight_le_of_sublist (w : α → Nat) {xs ys : List α} (h : xs.Sublist ys) :
    totalWeight w xs ≤ totalWeight w ys :=
  (h.map w).sum_le_sum fun _ _ => Nat.zero_le _

end Eidetic.Lib
