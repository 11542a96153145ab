import Mathlib.Data.List.Nodup
import Mathlib.Data.List.Sort
import Mathlib.Order.BoundedOrder.Basic
import Mathlib.Order.Lattice

/-!
# What `ORDER BY` allows

A query that sorts rows by a key may return rows of equal keys in either order.
The rows come in one order only, that in which they are sorted already, exactly
when no two of them have equal keys (`orders_eq_iff`). Rows of the greatest key come
last, so a limit that the others reach leaves them out (`take_orders_iff`).

An order is a sorted permutation (`Orders`). Two sorted permutations differ only
where keys are equal, and such rows can be swapped (`orders_swap`). The second
part is for keys with a greatest one, as `NULL` sorts: an order is one of the
other rows and then the last ones.
-/

namespace Eidetic.Lib

variable {α β : Type*}

/-- An order in which a query with `ORDER BY key` may return the rows. -/
structure Orders [LE β] (key : α → β) (rows order : List α) : Prop where
  perm : order.Perm rows
  sorted : order.Pairwise fun a b => key a ≤ key b

instance [LE β] [DecidableEq α] [DecidableLE β] (key : α → β) (rows order : List α) :
    Decidable (Orders key rows order) :=
  decidable_of_iff (order.Perm rows ∧ order.Pairwise fun a b => key a ≤ key b)
    ⟨fun h => ⟨h.1, h.2⟩, fun h => ⟨h.perm, h.sorted⟩⟩

variable [LinearOrder β] {key : α → β} {rows order : List α}

/-- There is an order. -/
theorem exists_orders (key : α → β) (rows : List α) : ∃ order, Orders key rows order := by
  have htotal : Std.Total fun a b : α => key a ≤ key b := ⟨fun a b => le_total _ _⟩
  have htrans : IsTrans α fun a b => key a ≤ key b := ⟨fun a b c hab hbc => le_trans hab hbc⟩
  exact ⟨rows.insertionSort fun a b => key a ≤ key b, List.perm_insertionSort _ _,
    List.pairwise_insertionSort _ _⟩

/-- Rows of different keys come in one order. -/
theorem Orders.eq_of_strict (h : Orders key rows order)
    (hstrict : rows.Pairwise fun a b => key a < key b) : order = rows := by
  refine List.Perm.eq_of_pairwise ?_ h.sorted (hstrict.imp le_of_lt) h.perm
  intro a b ha hb hab hba
  have hkeys : (rows.map key).Nodup := List.pairwise_map.mpr (hstrict.imp ne_of_lt)
  exact List.inj_on_of_nodup_map hkeys (h.perm.subset ha) hb (le_antisymm hab hba)

/-- Sorted rows of which two have equal keys have such rows next to each other. -/
theorem exists_tie (hsorted : rows.Pairwise fun a b => key a ≤ key b)
    (h : ¬ rows.Pairwise fun a b => key a < key b) :
    ∃ before a b after, rows = before ++ a :: b :: after ∧ key a = key b := by
  induction rows with
  | nil => exact absurd List.Pairwise.nil h
  | cons x rows ih =>
    obtain ⟨hx, hrest⟩ := List.pairwise_cons.mp hsorted
    by_cases hstrict : rows.Pairwise fun a b => key a < key b
    · have hnot : ¬ ∀ y ∈ rows, key x < key y := fun hlt => h (List.pairwise_cons.mpr ⟨hlt, hstrict⟩)
      push Not at hnot
      obtain ⟨y, hy, hle⟩ := hnot
      cases rows with
      | nil => exact absurd hy List.not_mem_nil
      | cons z rows =>
        -- the first of the others is between the two
        have hzy : key z ≤ key y := by
          rcases List.mem_cons.mp hy with rfl | hmem
          · exact le_refl _
          · exact (List.pairwise_cons.mp hrest).1 y hmem
        exact ⟨[], x, z, rows, rfl, le_antisymm (hx z List.mem_cons_self) (hzy.trans hle)⟩
    · obtain ⟨before, a, b, after, rfl, htie⟩ := ih hrest hstrict
      exact ⟨x :: before, a, b, after, rfl, htie⟩

/-- Two rows next to each other may come the other way round. -/
theorem orders_swap {before after : List α} {a b : α}
    (hsorted : (before ++ a :: b :: after).Pairwise fun a b => key a ≤ key b) (htie : key a = key b) :
    Orders key (before ++ a :: b :: after) (before ++ b :: a :: after) where
  perm := (List.Perm.swap a b after).append_left before
  sorted := by
    obtain ⟨hbefore, hrest, hcross⟩ := List.pairwise_append.mp hsorted
    obtain ⟨ha, hb, hafter⟩ : (∀ y ∈ b :: after, key a ≤ key y) ∧ (∀ y ∈ after, key b ≤ key y) ∧
        after.Pairwise fun a b => key a ≤ key b := by
      obtain ⟨ha, hrest⟩ := List.pairwise_cons.mp hrest
      exact ⟨ha, List.pairwise_cons.mp hrest⟩
    refine List.pairwise_append.mpr ⟨hbefore, ?_, ?_⟩
    · refine List.pairwise_cons.mpr ⟨?_, List.pairwise_cons.mpr ⟨?_, hafter⟩⟩
      · intro y hy
        rcases List.mem_cons.mp hy with rfl | hmem
        · exact le_of_eq htie.symm
        · exact hb y hmem
      · exact fun y hy => ha y (List.mem_cons_of_mem _ hy)
    · intro x hx y hy
      exact hcross x hx y ((List.Perm.swap a b after).subset hy)

/-- Sorted rows come in their order only exactly when no keys are equal. -/
theorem orders_eq_iff (hsorted : rows.Pairwise fun a b => key a ≤ key b) (hnodup : rows.Nodup) :
    (∀ order, Orders key rows order → order = rows) ↔ rows.Pairwise fun a b => key a < key b := by
  constructor
  · intro h
    by_contra hnot
    obtain ⟨before, a, b, after, rfl, htie⟩ := exists_tie hsorted hnot
    have heq := List.append_cancel_left (h _ (orders_swap hsorted htie))
    obtain ⟨hab, _⟩ := List.cons.inj heq
    have hne := (List.nodup_cons.mp (List.nodup_append'.mp hnodup).2.1).1
    exact hne (hab ▸ List.mem_cons_self)
  · exact fun hstrict order h => h.eq_of_strict hstrict

/-! ## Rows that come last -/

theorem Orders.filter (h : Orders key rows order) (p : α → Bool) :
    Orders key (rows.filter p) (order.filter p) :=
  ⟨h.perm.filter p, h.sorted.sublist List.filter_sublist⟩

variable [OrderTop β]

/-- The rows of the greatest key follow the others. -/
theorem Orders.eq_append (h : Orders key rows order) :
    order = (order.filter fun a => key a ≠ ⊤) ++ order.filter fun a => key a = ⊤ := by
  have hsorted := h.sorted
  clear h
  induction order with
  | nil => rfl
  | cons a order ih =>
    obtain ⟨hfirst, hrest⟩ := List.pairwise_cons.mp hsorted
    by_cases htop : key a = ⊤
    · -- nothing is greater than the first, so all are last
      have hall : ∀ b ∈ a :: order, key b = ⊤ := by
        intro b hb
        rcases List.mem_cons.mp hb with rfl | hb
        · exact htop
        · exact top_le_iff.mp (htop ▸ hfirst b hb)
      have hnone : ((a :: order).filter fun b => key b ≠ ⊤) = [] := by
        rw [List.filter_eq_nil_iff]
        exact fun b hb => by simp [hall b hb]
      rw [hnone, List.nil_append, List.filter_eq_self.mpr fun b hb => decide_eq_true (hall b hb)]
    · rw [List.filter_cons_of_pos (by simpa using htop), List.filter_cons_of_neg (by simpa using htop),
        List.cons_append, ← ih hrest]

/-- The last rows may follow in the order in which they are. -/
theorem Orders.append (h : Orders key (rows.filter fun a => key a ≠ ⊤) order) :
    Orders key rows (order ++ rows.filter fun a => key a = ⊤) := by
  constructor
  · refine (h.perm.append_right _).trans ?_
    have hsplit := List.filter_append_perm (fun a => decide (key a ≠ ⊤)) rows
    simpa using hsplit
  · refine List.pairwise_append.mpr ⟨h.sorted, ?_, fun a _ b hb => ?_⟩
    · refine List.pairwise_of_forall_mem_list fun a _ b hb => ?_
      rw [of_decide_eq_true (List.mem_filter.mp hb).2]
      exact le_top
    · rw [of_decide_eq_true (List.mem_filter.mp hb).2]
      exact le_top

/-- Within the limit only the other rows come, as they come without the last ones. -/
theorem take_orders_iff {k : Nat} (hk : k ≤ (rows.filter fun a => key a ≠ ⊤).length)
    (answer : List α) :
    (∃ order, Orders key rows order ∧ answer = order.take k) ↔
      ∃ order, Orders key (rows.filter fun a => key a ≠ ⊤) order ∧ answer = order.take k := by
  constructor
  · intro ⟨order, h, hanswer⟩
    have hfilter := h.filter fun a => key a ≠ ⊤
    refine ⟨_, hfilter, ?_⟩
    rw [hanswer, h.eq_append, List.take_append_of_le_length]
    · simp [List.filter_filter]
    · rw [hfilter.perm.length_eq]
      exact hk
  · intro ⟨order, h, hanswer⟩
    refine ⟨_, h.append, ?_⟩
    rw [hanswer, List.take_append_of_le_length]
    rw [h.perm.length_eq]
    exact hk

/-- A limit that the other rows do not reach lets one of the last ones come. -/
theorem Orders.exists_top_mem_take (h : Orders key rows order) {k : Nat}
    (hk : (rows.filter fun a => key a ≠ ⊤).length < k) (htop : ∃ a ∈ rows, key a = ⊤) :
    ∃ a ∈ order.take k, key a = ⊤ := by
  obtain ⟨a, ha, hkey⟩ := htop
  have hmem : a ∈ order.filter fun a => key a = ⊤ :=
    List.mem_filter.mpr ⟨h.perm.mem_iff.mpr ha, decide_eq_true hkey⟩
  obtain ⟨b, rest, hrest⟩ := List.exists_cons_of_ne_nil (List.ne_nil_of_mem hmem)
  have hlength := (h.filter fun a => key a ≠ ⊤).perm.length_eq
  have hb : b ∈ order.filter fun a => key a = ⊤ := by rw [hrest]; exact List.mem_cons_self
  refine ⟨b, ?_, of_decide_eq_true (List.mem_filter.mp hb).2⟩
  rw [h.eq_append, hrest, List.take_append]
  refine List.mem_append_right _ ?_
  obtain ⟨n, hn⟩ : ∃ n, k - (order.filter fun a => key a ≠ ⊤).length = n + 1 :=
    ⟨k - (order.filter fun a => key a ≠ ⊤).length - 1, by omega⟩
  rw [hn, List.take_succ_cons]
  exact List.mem_cons_self

end Eidetic.Lib
