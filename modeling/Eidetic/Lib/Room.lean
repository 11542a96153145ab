import Mathlib.Algebra.Order.Group.Nat

/-!
# Making room before adding

Tasks share a store that is to have `cap` members at most. Each counts them,
takes out as many as its batch is too much by that count, and puts its batch in.
Between these steps come those of the other tasks, and members go by themselves.

With `k` tasks at once, none of which adds more than `b`, the store has
`cap + b * (k - 1)` members at most: what the others may still add when a task
counts is all that its count misses.
-/

namespace Eidetic.Lib

/-- A task that has counted: how much it adds, and what it still has to take out. -/
structure Adder where
  adds : Nat
  excess : Nat

/-- By how much the store may grow by the task. A task that takes out more than
it adds is as if it would leave the store alone. -/
def Adder.growth (r : Adder) : Nat := r.adds - r.excess

def growthOf : List Adder → Nat
  | [] => 0
  | r :: flight => r.growth + growthOf flight

/-- What holds at each moment, of the size of the store and the tasks that have
counted. -/
structure HasRoom (cap b k size : Nat) (flight : List Adder) : Prop where
  adds : ∀ r ∈ flight, r.adds ≤ b
  few : flight.length ≤ k
  room : size + growthOf flight ≤ cap + b * (k - 1)

variable {cap b k size size' : Nat} {r : Adder} {flight flight' : List Adder}

theorem growthOf_cons : growthOf (r :: flight) = r.growth + growthOf flight := rfl

theorem growthOf_perm (h : flight.Perm flight') : growthOf flight = growthOf flight' := by
  induction h with
  | nil => rfl
  | cons r _ ih => rw [growthOf_cons, growthOf_cons, ih]
  | swap r r' flight =>
    show r'.growth + (r.growth + growthOf flight) = r.growth + (r'.growth + growthOf flight)
    omega
  | trans _ _ ih ih' => exact ih.trans ih'

theorem growthOf_sublist (h : flight'.Sublist flight) : growthOf flight' ≤ growthOf flight := by
  induction h with
  | slnil => exact Nat.le_refl _
  | cons r _ ih =>
    rw [growthOf_cons]
    exact Nat.le_add_left_of_le ih
  | cons_cons r _ ih => exact Nat.add_le_add_left ih _

theorem growthOf_le (h : ∀ r ∈ flight, r.adds ≤ b) : growthOf flight ≤ b * flight.length := by
  induction flight with
  | nil => exact Nat.zero_le _
  | cons r flight ih =>
    have hr : r.growth ≤ b := Nat.le_trans (Nat.sub_le _ _) (h r List.mem_cons_self)
    have hrest := ih fun r hr => h r (List.mem_cons_of_mem _ hr)
    rw [growthOf_cons, List.length_cons, Nat.mul_succ]
    omega

theorem hasRoom_nil (hsize : size ≤ cap) : HasRoom cap b k size [] :=
  ⟨nofun, Nat.zero_le _, Nat.le_add_right_of_le hsize⟩

theorem HasRoom.le (h : HasRoom cap b k size flight) : size ≤ cap + b * (k - 1) :=
  Nat.le_trans (Nat.le_add_right _ _) h.room

theorem HasRoom.perm (h : HasRoom cap b k size flight) (hp : flight.Perm flight') :
    HasRoom cap b k size flight' := by
  refine ⟨fun r hr => h.adds r (hp.mem_iff.mpr hr), ?_, ?_⟩
  · rw [← hp.length_eq]
    exact h.few
  · rw [← growthOf_perm hp]
    exact h.room

/-- Members go, and tasks may end without adding. -/
theorem HasRoom.less (h : HasRoom cap b k size flight) (hsize : size' ≤ size)
    (hflight : flight'.Sublist flight) : HasRoom cap b k size' flight' := by
  refine ⟨fun r hr => h.adds r (hflight.subset hr), Nat.le_trans hflight.length_le h.few, ?_⟩
  have hgrowth := growthOf_sublist hflight
  have hroom := h.room
  omega

/-- A task counts, and goes by its count from then on. -/
theorem HasRoom.count {n : Nat} (h : HasRoom cap b k size flight) (hn : n ≤ b) (hk : flight.length < k) :
    HasRoom cap b k size (⟨n, size + n - cap⟩ :: flight) := by
  refine ⟨?_, hk, ?_⟩
  · intro r hr
    rcases List.mem_cons.mp hr with rfl | hold
    · exact hn
    · exact h.adds r hold
  · have hothers : growthOf flight ≤ b * (k - 1) :=
      Nat.le_trans (growthOf_le h.adds) (Nat.mul_le_mul_left b (by omega))
    have hroom := h.room
    rw [growthOf_cons]
    show size + (n - (size + n - cap) + growthOf flight) ≤ _
    omega

/-- A task takes out what its batch is too much, or all there is. -/
theorem HasRoom.free (h : HasRoom cap b k size (r :: flight)) (hcap : b ≤ cap)
    (hsize : size' ≤ size - r.excess) : HasRoom cap b k size' (⟨r.adds, 0⟩ :: flight) := by
  have hr := h.adds r List.mem_cons_self
  refine ⟨?_, h.few, ?_⟩
  · intro r' hr'
    rcases List.mem_cons.mp hr' with rfl | hold
    · exact hr
    · exact h.adds r' (List.mem_cons_of_mem _ hold)
  · have hfew := h.few
    rw [List.length_cons] at hfew
    have hothers : growthOf flight ≤ b * (k - 1) := by
      refine Nat.le_trans (growthOf_le fun r hr => h.adds r (List.mem_cons_of_mem _ hr)) ?_
      exact Nat.mul_le_mul_left b (by omega)
    have hroom := h.room
    rw [growthOf_cons] at hroom ⊢
    unfold Adder.growth at hroom ⊢
    show size' + (r.adds - 0 + growthOf flight) ≤ _
    omega

/-- A task that has nothing more to take out adds its batch. -/
theorem HasRoom.add (h : HasRoom cap b k size (r :: flight)) (hexcess : r.excess = 0)
    (hsize : size' ≤ size + r.adds) : HasRoom cap b k size' flight := by
  refine ⟨fun r hr => h.adds r (List.mem_cons_of_mem _ hr), Nat.le_of_succ_le h.few, ?_⟩
  have hroom := h.room
  rw [growthOf_cons] at hroom
  unfold Adder.growth at hroom
  omega

end Eidetic.Lib
