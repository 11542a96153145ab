import Mathlib.Data.List.Chain

/-!
# A list cut into segments from the front

A scan over a list that decides at each element how many of the following
ones go with it cuts the list into segments: `take x xs` is how many of the
elements `xs` after `x` belong to the segment that `x` opens. A pass over the
list writes something for each segment: it is a `flatMap` over `segments`.

What holds of any two elements that stand next to each other is kept by a pass
that keeps it within each segment and at its ends (`isChain_segments`).
-/

namespace Eidetic.Lib

variable {α : Type}

/-- The segments of a list. -/
def segments (take : α → List α → Nat) : List α → List (List α)
  | [] => []
  | x :: xs => (x :: xs.take (take x xs)) :: segments take (xs.drop (take x xs))
termination_by xs => xs.length
decreasing_by simp only [List.length_drop, List.length_cons]; omega

@[simp] theorem segments_nil (take : α → List α → Nat) : segments take [] = [] := by
  unfold segments
  rfl

theorem segments_cons (take : α → List α → Nat) (x : α) (xs : List α) :
    segments take (x :: xs)
      = (x :: xs.take (take x xs)) :: segments take (xs.drop (take x xs)) := by
  conv => lhs; unfold segments

/-- A property of the segments of every list, by the scan. -/
theorem segments_induction (take : α → List α → Nat) {P : List α → Prop} (nil : P [])
    (cons : ∀ x xs, P (xs.drop (take x xs)) → P (x :: xs)) : ∀ (xs : List α), P xs
  | [] => nil
  | x :: xs => cons x xs (segments_induction take nil cons (xs.drop (take x xs)))
  termination_by xs => xs.length
  decreasing_by simp only [List.length_drop, List.length_cons]; omega

/-- The segments are the list. -/
@[simp] theorem segments_flatten (take : α → List α → Nat) (xs : List α) :
    (segments take xs).flatten = xs := by
  induction xs using segments_induction take with
  | nil => simp
  | cons x xs ih => simp [segments_cons, ih]

theorem segments_ne_nil (take : α → List α → Nat) (xs : List α) :
    ∀ seg ∈ segments take xs, seg ≠ [] := by
  induction xs using segments_induction take with
  | nil => simp
  | cons x xs ih =>
    intro seg hseg
    rw [segments_cons] at hseg
    rcases List.mem_cons.mp hseg with rfl | hseg
    · simp
    · exact ih seg hseg

/-- A segment is an element and the ones taken with it. -/
theorem segments_take {take : α → List α → Nat} {xs seg : List α}
    (h : seg ∈ segments take xs) :
    ∃ before x after, xs = before ++ x :: after ∧ seg = x :: after.take (take x after) := by
  induction xs using segments_induction take with
  | nil => simp at h
  | cons x xs ih =>
    rw [segments_cons] at h
    rcases List.mem_cons.mp h with rfl | h
    · exact ⟨[], x, xs, rfl, rfl⟩
    · obtain ⟨before, y, after, hxs, hseg⟩ := ih h
      refine ⟨x :: (xs.take (take x xs) ++ before), y, after, ?_, hseg⟩
      rw [List.cons_append, List.append_assoc, ← hxs, List.take_append_drop]

/-! ## A pass over the segments -/

/-- What a pass writes is linked if the list is: each segment is written as a
linked list, whose first and last element are linked to whatever those of the
segment are. -/
theorem isChain_segments {R : α → α → Prop} {f : List α → List α} {take : α → List α → Nat}
    {xs : List α} (hne : ∀ seg, seg ≠ [] → f seg ≠ [])
    (hchain : ∀ seg, seg.IsChain R → (f seg).IsChain R)
    (hhead : ∀ seg, ∀ y ∈ (f seg).head?, ∃ x ∈ seg.head?, ∀ z, R z x → R z y)
    (hlast : ∀ seg, ∀ y ∈ (f seg).getLast?, ∃ x ∈ seg.getLast?, ∀ z, R x z → R y z)
    (h : xs.IsChain R) : ((segments take xs).flatMap f).IsChain R := by
  have hnil : [] ∉ segments take xs := fun hmem => segments_ne_nil take xs [] hmem rfl
  have hnil' : [] ∉ (segments take xs).map f := by
    intro hmem
    obtain ⟨seg, hseg, he⟩ := List.mem_map.mp hmem
    exact hne seg (segments_ne_nil take xs seg hseg) he
  rw [← segments_flatten take xs, List.isChain_flatten hnil] at h
  obtain ⟨hsegs, hlinks⟩ := h
  rw [List.flatMap_def, List.isChain_flatten hnil', List.isChain_map]
  refine ⟨?_, hlinks.imp ?_⟩
  · intro l hl
    obtain ⟨seg, hseg, rfl⟩ := List.mem_map.mp hl
    exact hchain seg (hsegs seg hseg)
  · intro seg next hlink y hy w hw
    obtain ⟨x, hx, hxy⟩ := hlast seg y hy
    obtain ⟨v, hv, hvw⟩ := hhead next w hw
    exact hxy w (hvw x (hlink x hx v hv))

end Eidetic.Lib
