import Mathlib.Data.List.GetD

/-!
# Interleavings of several feeds

A queue that several producers fill, each in its own order. An entry carries
the index of the producer it comes from, and the queue is an interleaving of
the feeds when each producer's entries are its feed.
-/

namespace Eidetic.Lib

variable {α β : Type*}

/-- The queue is an interleaving of the feeds. -/
def IsMerge (feeds : List (List α)) (queue : List (Nat × α)) : Prop :=
  ∀ i, (queue.filter fun e => e.1 = i).map (·.2) = feeds.getD i []

variable {feeds : List (List α)} {queue : List (Nat × α)}

theorem IsMerge.mem_feed (h : IsMerge feeds queue) {e : Nat × α} (he : e ∈ queue) :
    e.2 ∈ feeds.getD e.1 [] := by
  rw [← h e.1]
  exact List.mem_map_of_mem (List.mem_filter.mpr ⟨he, by simp⟩)

theorem IsMerge.mem_queue (h : IsMerge feeds queue) {i : Nat} {x : α} (hx : x ∈ feeds.getD i []) :
    (i, x) ∈ queue := by
  rw [← h i] at hx
  obtain ⟨⟨j, y⟩, he, hy⟩ := List.mem_map.mp hx
  obtain ⟨he, hj⟩ := List.mem_filter.mp he
  have hj : j = i := of_decide_eq_true hj
  have hy : y = x := hy
  rw [← hj, ← hy]
  exact he

/-- The last entry of the queue is the last of its feed. -/
theorem IsMerge.getLast? (h : IsMerge feeds queue) {earlier : List (Nat × α)} {i : Nat} {x : α}
    (hq : queue = earlier ++ [(i, x)]) : (feeds.getD i []).getLast? = some x := by
  rw [← h i, hq, List.filter_append, List.map_append]
  simp

/-- When each feed has one entry of a kind, the queue has one for each feed. -/
theorem IsMerge.length_filter (h : IsMerge feeds queue) (kind : α → Bool)
    (hone : ∀ feed ∈ feeds, (feed.filter kind).length = 1) :
    (queue.filter fun e => kind e.2).length = feeds.length := by
  have hfeed : ∀ i, ((queue.filter fun e => kind e.2).map (·.1)).count i
      = ((feeds.getD i []).filter kind).length := by
    intro i
    rw [← h i, List.count_eq_length_filter, List.filter_map, List.filter_map, List.length_map,
      List.length_map, List.filter_filter, List.filter_filter]
    congr 1
    apply List.filter_congr
    intro e _
    simp only [Function.comp_apply, Bool.and_comm]
    rfl
  have hperm : ((queue.filter fun e => kind e.2).map (·.1)).Perm (List.range feeds.length) := by
    rw [List.perm_iff_count]
    intro i
    rw [hfeed, List.count_range]
    by_cases hi : i < feeds.length
    · rw [List.getD_eq_getElem _ _ hi, hone _ (List.getElem_mem hi), if_pos hi]
    · rw [List.getD_eq_default _ _ (Nat.le_of_not_lt hi), if_neg hi]
      rfl
  have hlength := hperm.length_eq
  rwa [List.length_map, List.length_range] at hlength

/-! ## What the entries add up to -/

theorem flatMap_filter (p : α → Prop) [DecidablePred p] (f : α → List β) (xs : List α) :
    (xs.filter fun x => p x).flatMap f = xs.flatMap fun x => if p x then f x else [] := by
  induction xs with
  | nil => rfl
  | cons x xs ih =>
    rw [List.filter_cons, List.flatMap_cons]
    by_cases hx : p x
    · simp [hx, ih]
    · simp [hx, ih]

/-- The entries of one producer add up to what its feed does. -/
theorem IsMerge.flatMap (h : IsMerge feeds queue) (f : α → List β) (i : Nat) :
    (queue.flatMap fun e => if e.1 = i then f e.2 else []) = (feeds.getD i []).flatMap f := by
  rw [← h i, List.flatMap_map, flatMap_filter]

/-- Parts that the entries keep apart add up to no more than the whole. -/
theorem length_flatMap_two (g f₁ f₂ : α → List β) (xs : List α)
    (h : ∀ x ∈ xs, (f₁ x).length + (f₂ x).length ≤ (g x).length) :
    (xs.flatMap f₁).length + (xs.flatMap f₂).length ≤ (xs.flatMap g).length := by
  induction xs with
  | nil => exact Nat.le_refl 0
  | cons x xs ih =>
    have hx := h x (by simp)
    have hxs := ih fun y hy => h y (List.mem_cons_of_mem x hy)
    simp only [List.flatMap_cons, List.length_append]
    omega

end Eidetic.Lib
