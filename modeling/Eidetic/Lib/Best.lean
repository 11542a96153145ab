import Mathlib.Data.List.Sort
import Mathlib.Data.List.TakeWhile

/-!
# The best by a score

`sorted(xs, key=lambda x: -score(x))[:k]`: the highest scores come first, equal
ones in the order they had. What has fewer than `k` others with a higher score
or an equal one is among the best; what is among the best has fewer than `k`
others with a higher score.

The sort is stable, so the place of an element depends on the order before it
for elements of its own score, and on nothing else (`byScore_filter`). The
lemmas are the two halves of counting who is better, each with what it says of
the last element, of the first one, and of two whose order matters: a higher
score comes first (`pair_sublist_best`), equal scores keep their order
(`not_pair_sublist_best`).
-/

namespace Eidetic.Lib

variable {α β : Type*} [LinearOrder β] (score : α → β)

/-- The highest score first. -/
def byScore (xs : List α) : List α := xs.insertionSort fun a b => score b ≤ score a

/-- The first `k` of them. -/
def best (k : Nat) (xs : List α) : List α := (byScore score xs).take k

variable {score} {xs ys : List α} {x y : α} {k : Nat}

theorem byScore_perm (score : α → β) (xs : List α) : (byScore score xs).Perm xs :=
  List.perm_insertionSort _ _

theorem mem_byScore : x ∈ byScore score xs ↔ x ∈ xs := (byScore_perm score xs).mem_iff

theorem byScore_sorted (score : α → β) (xs : List α) :
    (byScore score xs).Pairwise fun a b => score b ≤ score a := by
  have htotal : Std.Total fun a b : α => score b ≤ score a := ⟨fun a b => le_total _ _⟩
  have htrans : IsTrans α fun a b => score b ≤ score a := ⟨fun a b c hab hbc => le_trans hbc hab⟩
  exact List.pairwise_insertionSort _ _

theorem orderedInsert_of_forall {a : α} (h : ∀ b ∈ xs, score b ≤ score a) :
    xs.orderedInsert (fun a b => score b ≤ score a) a = a :: xs := by
  cases xs with
  | nil => rfl
  | cons b xs => rw [List.orderedInsert_cons, if_pos (h b List.mem_cons_self)]

theorem filter_orderedInsert {a : α} (p : α → Bool)
    (h : xs.Pairwise fun a b => score b ≤ score a) :
    (xs.orderedInsert (fun a b => score b ≤ score a) a).filter p
      = if p a then (xs.filter p).orderedInsert (fun a b => score b ≤ score a) a
        else xs.filter p := by
  induction xs with
  | nil => cases hp : p a <;> simp [hp]
  | cons b xs ih =>
    obtain ⟨hb, hrest⟩ := List.pairwise_cons.mp h
    rw [List.orderedInsert_cons]
    by_cases hle : score b ≤ score a
    · -- everything comes after `a`
      have hall : ∀ c ∈ (b :: xs).filter p, score c ≤ score a := by
        intro c hc
        rcases List.mem_cons.mp (List.mem_filter.mp hc).1 with rfl | hc
        · exact hle
        · exact le_trans (hb c hc) hle
      rw [if_pos hle, List.filter_cons, orderedInsert_of_forall hall]
    · rw [if_neg hle, List.filter_cons, ih hrest]
      by_cases hpb : p b = true
      · rw [if_pos hpb, List.filter_cons_of_pos hpb]
        split
        next => rw [List.orderedInsert_cons, if_neg hle]
        next => rfl
      · rw [if_neg hpb, List.filter_cons_of_neg hpb]

/-- What is left out makes no difference to the order of the rest. -/
theorem byScore_filter (score : α → β) (p : α → Bool) (xs : List α) :
    byScore score (xs.filter p) = (byScore score xs).filter p := by
  induction xs with
  | nil => rfl
  | cons a xs ih =>
    have hstep : byScore score (a :: xs)
        = (byScore score xs).orderedInsert (fun a b => score b ≤ score a) a := rfl
    rw [hstep, filter_orderedInsert p (byScore_sorted score xs), ← ih, List.filter_cons]
    split
    next => rfl
    next => rfl

/-- Rounding the scores makes no difference when no two become equal. -/
theorem byScore_comp {γ : Type*} [LinearOrder γ] {f : β → γ} (hf : Monotone f) (hperm : xs.Perm ys)
    (h : ∀ a ∈ xs, ∀ b ∈ xs, f (score a) = f (score b) → a = b) :
    byScore (fun a => f (score a)) xs = byScore score ys := by
  have hall : (byScore (fun a => f (score a)) xs).Perm (byScore score ys) :=
    ((byScore_perm _ xs).trans hperm).trans (byScore_perm score ys).symm
  have hsorted : (byScore score ys).Pairwise fun a b => f (score b) ≤ f (score a) :=
    (byScore_sorted score ys).imp fun hle => hf hle
  refine List.Perm.eq_of_pairwise ?_ (byScore_sorted _ xs) hsorted hall
  intro a b ha hb hba hab
  have hb' : b ∈ xs := hperm.mem_iff.mpr (mem_byScore.mp hb)
  exact h a (mem_byScore.mp ha) b hb' (le_antisymm hab hba)

/-- The same elements come in the same order when no two scores are equal. -/
theorem byScore_congr (hperm : xs.Perm ys) (h : ∀ a ∈ xs, ∀ b ∈ xs, score a = score b → a = b) :
    byScore score xs = byScore score ys :=
  byScore_comp monotone_id hperm h

theorem length_best : (best score k xs).length = min k xs.length := by
  rw [best, List.length_take, (byScore_perm score xs).length_eq]

theorem best_subset (h : x ∈ best score k xs) : x ∈ xs := mem_byScore.mp (List.mem_of_mem_take h)

theorem best_sorted (score : α → β) (k : Nat) (xs : List α) :
    (best score k xs).Pairwise fun a b => score b ≤ score a :=
  (byScore_sorted score xs).sublist (List.take_sublist _ _)

theorem nodup_best (h : xs.Nodup) : (best score k xs).Nodup :=
  ((byScore_perm score xs).nodup_iff.mpr h).sublist (List.take_sublist _ _)

theorem best_of_length_le (h : xs.length ≤ k) : (best score k xs).Perm xs := by
  rw [best, List.take_of_length_le ((byScore_perm score xs).length_eq.trans_le h)]
  exact byScore_perm score xs

/-- What is beaten or reached by fewer than `k` others is among the best. -/
theorem mem_best_of_few (hx : x ∈ xs) (h : xs.countP (fun y => score x ≤ score y) ≤ k) :
    x ∈ best score k xs := by
  have hmem : x ∈ (byScore score xs).take k ++ (byScore score xs).drop k := by
    rw [List.take_append_drop]
    exact mem_byScore.mpr hx
  refine (List.mem_append.mp hmem).resolve_right fun hdrop => ?_
  -- otherwise the first `k` all reach it, and it is one more
  have hsorted := byScore_sorted score xs
  rw [← List.take_append_drop k (byScore score xs)] at hsorted
  have hreach : ∀ y ∈ (byScore score xs).take k, decide (score x ≤ score y) = true := fun y hy =>
    decide_eq_true ((List.pairwise_append.mp hsorted).2.2 y hy x hdrop)
  have hself : 0 < ((byScore score xs).drop k).countP fun y => score x ≤ score y :=
    List.countP_pos_iff.mpr ⟨x, hdrop, by simp⟩
  have hk : k < (byScore score xs).length := by
    by_contra hle
    rw [List.drop_eq_nil_of_le (Nat.le_of_not_lt hle)] at hdrop
    exact absurd hdrop List.not_mem_nil
  have hcount := (byScore_perm score xs).countP_eq fun y => decide (score x ≤ score y)
  rw [← List.take_append_drop k (byScore score xs), List.countP_append,
    List.countP_eq_length.mpr hreach, List.length_take, Nat.min_eq_left hk.le] at hcount
  omega

/-- What is among the best is beaten by fewer than `k`. -/
theorem few_of_mem_best (h : x ∈ best score k xs) : xs.countP (fun y => score x < score y) < k := by
  obtain ⟨before, after, hsplit⟩ := List.append_of_mem h
  have hsorted := byScore_sorted score xs
  have htake : byScore score xs = before ++ x :: (after ++ (byScore score xs).drop k) := by
    conv_lhs => rw [← List.take_append_drop k (byScore score xs)]
    rw [show (byScore score xs).take k = before ++ x :: after from hsplit, List.append_assoc]
    rfl
  rw [htake] at hsorted
  have hlater := (List.pairwise_cons.mp (List.pairwise_append.mp hsorted).2.1).1
  have hnone : (x :: (after ++ (byScore score xs).drop k)).countP (fun y => score x < score y) = 0 := by
    rw [List.countP_eq_zero]
    intro y hy
    rw [decide_eq_true_eq, not_lt]
    rcases List.mem_cons.mp hy with rfl | hy
    · exact le_refl _
    · exact hlater y hy
  have hlength : before.length < k := by
    have hle := congrArg List.length hsplit
    rw [List.length_append, List.length_cons] at hle
    have := List.length_take_le k (byScore score xs)
    rw [show (byScore score xs).take k = best score k xs from rfl] at this
    omega
  rw [← (byScore_perm score xs).countP_eq, htake, List.countP_append, hnone]
  exact Nat.lt_of_le_of_lt List.countP_le_length hlength

/-- What stands before an element that occurs once stands in the part before it. -/
theorem mem_of_pair_sublist {before after : List α} (h : List.Sublist [y, x] (before ++ x :: after))
    (hnodup : (before ++ x :: after).Nodup) : y ∈ before := by
  obtain ⟨-, hrest, hcross⟩ := List.nodup_append.mp hnodup
  have hbefore : x ∉ before := fun hx => hcross x hx x List.mem_cons_self rfl
  have hafter : x ∉ after := (List.nodup_cons.mp hrest).1
  obtain ⟨first, second, hcut, hfirst, hsecond⟩ := List.sublist_append_iff.mp h
  match first with
  | [] =>
    rw [List.nil_append] at hcut
    rw [← hcut] at hsecond
    rcases List.sublist_cons_iff.mp hsecond with hsub | ⟨r, hr, hsub⟩
    · exact absurd (hsub.subset (by simp)) hafter
    · rw [← (List.cons.inj hr).2] at hsub
      exact absurd (hsub.subset (by simp)) hafter
  | z :: more =>
    rw [(List.cons.inj hcut).1]
    exact hfirst.subset List.mem_cons_self

/-- The last one is among the best exactly when fewer than `k` of the others
reach it, since those of its score come before it. -/
theorem last_mem_best_iff (h : (xs ++ [x]).Nodup) :
    x ∈ best score k (xs ++ [x]) ↔ xs.countP (fun y => score x ≤ score y) < k := by
  constructor
  · intro hbest
    obtain ⟨before, after, hsplit⟩ := List.append_of_mem hbest
    have hwhole : byScore score (xs ++ [x])
        = before ++ x :: (after ++ (byScore score (xs ++ [x])).drop k) := by
      conv_lhs => rw [← List.take_append_drop k (byScore score (xs ++ [x]))]
      rw [show (byScore score (xs ++ [x])).take k = before ++ x :: after from hsplit,
        List.append_assoc]
      rfl
    have hnodup := (byScore_perm score (xs ++ [x])).nodup_iff.mpr h
    rw [hwhole] at hnodup
    have hbefore : xs.filter (fun y => score x ≤ score y) ⊆ before := by
      intro y hy
      obtain ⟨hy, hle⟩ := List.mem_filter.mp hy
      have hpair : List.Sublist [y, x] (xs ++ [x]) :=
        (List.singleton_sublist.mpr hy).append (List.Sublist.refl [x])
      have hstable : List.Sublist [y, x] (byScore score (xs ++ [x])) :=
        List.pair_sublist_insertionSort (of_decide_eq_true hle) hpair
      rw [hwhole] at hstable
      exact mem_of_pair_sublist hstable hnodup
    have hfilter : (xs.filter fun y => score x ≤ score y).Nodup :=
      (List.nodup_append.mp h).1.filter _
    have hcount := (List.subperm_of_subset hfilter hbefore).length_le
    have hlength := congrArg List.length hsplit
    simp only [length_best, List.length_append, List.length_cons] at hlength
    rw [List.countP_eq_length_filter]
    omega
  · intro hfew
    refine mem_best_of_few (by simp) ?_
    rw [List.countP_append, List.countP_singleton]
    simp only [le_refl, decide_true, if_true]
    omega

/-- All of the best reach a bound when enough of all do, and only then. -/
theorem forall_best_iff {c : β} :
    (∀ x ∈ best score k xs, c ≤ score x) ↔ min k xs.length ≤ xs.countP fun x => c ≤ score x := by
  constructor
  · intro h
    have hall : (best score k xs).countP (fun x => c ≤ score x) = (best score k xs).length :=
      List.countP_eq_length.mpr fun x hx => decide_eq_true (h x hx)
    have hlength : (best score k xs).length = min k xs.length := length_best
    rw [← hlength, ← hall, ← (byScore_perm score xs).countP_eq]
    exact (List.take_sublist _ _).countP_le
  · intro h x hx
    by_contra hlow
    -- those that reach the bound are higher than it, and it is one more
    have hfew := few_of_mem_best hx
    have hhigher : xs.countP (fun y => c ≤ score y) ≤ xs.countP fun y => score x < score y := by
      refine List.countP_mono_left fun y _ hy => ?_
      exact decide_eq_true (lt_of_lt_of_le (not_le.mp hlow) (of_decide_eq_true hy))
    have hless : xs.countP (fun y => c ≤ score y) < xs.length := by
      refine lt_of_le_of_ne List.countP_le_length fun heq => hlow ?_
      exact of_decide_eq_true (List.countP_eq_length.mp heq x (best_subset hx))
    omega

/-- A higher score comes before what is among the best. -/
theorem pair_sublist_best (h : score y < score x) (hx : x ∈ xs) (hy : y ∈ best score k xs) :
    List.Sublist [x, y] (best score k xs) := by
  obtain ⟨before, after, hsplit⟩ := List.append_of_mem hy
  have hwhole : byScore score xs = before ++ y :: (after ++ (byScore score xs).drop k) := by
    conv_lhs => rw [← List.take_append_drop k (byScore score xs)]
    rw [show (byScore score xs).take k = before ++ y :: after from hsplit, List.append_assoc]
    rfl
  have hsorted := byScore_sorted score xs
  rw [hwhole] at hsorted
  have hlater := (List.pairwise_cons.mp (List.pairwise_append.mp hsorted).2.1).1
  have hmem : x ∈ before := by
    have hin : x ∈ byScore score xs := mem_byScore.mpr hx
    rw [hwhole] at hin
    refine (List.mem_append.mp hin).resolve_right fun hrest => ?_
    rcases List.mem_cons.mp hrest with rfl | hrest
    · exact lt_irrefl _ h
    · exact absurd (hlater x hrest) (not_le.mpr h)
  rw [hsplit]
  exact (List.singleton_sublist.mpr hmem).append (List.singleton_sublist.mpr (by simp))

theorem byScore_cons (x : α) (xs : List α) : byScore score (x :: xs)
    = (byScore score xs).takeWhile (fun y => ¬ score y ≤ score x) ++
      x :: (byScore score xs).dropWhile fun y => ¬ score y ≤ score x :=
  List.insertionSort_cons_eq_take_drop ..

/-- The first of all comes before those of its score, so it is among the best
when fewer than `k` are higher. -/
theorem head_mem_best (h : xs.countP (fun y => score x < score y) < k) :
    x ∈ best score k (x :: xs) := by
  have hlength : ((byScore score xs).takeWhile fun y => ¬ score y ≤ score x).length < k := by
    refine Nat.lt_of_le_of_lt ?_ h
    rw [← (byScore_perm score xs).countP_eq]
    have hall : ((byScore score xs).takeWhile fun y => ¬ score y ≤ score x).countP
        (fun y => score x < score y) = _ := List.countP_eq_length.mpr fun y hy => by
      simpa using List.mem_takeWhile_imp hy
    rw [← hall]
    exact (List.takeWhile_sublist _).countP_le
  rw [best, byScore_cons, List.take_append]
  refine List.mem_append_right _ ?_
  obtain ⟨n, hn⟩ : ∃ n, k - ((byScore score xs).takeWhile fun y => ¬ score y ≤ score x).length
      = n + 1 := ⟨_, (Nat.succ_pred_eq_of_pos (by omega)).symm⟩
  rw [hn, List.take_succ_cons]
  exact List.mem_cons_self ..

/-- Two elements come in one order only. -/
theorem not_pair_sublist_swap {l : List α} (hnodup : l.Nodup) (h : List.Sublist [x, y] l) :
    ¬ List.Sublist [y, x] l := by
  intro hswap
  obtain ⟨before, after, rfl⟩ := List.append_of_mem (h.subset (by simp : y ∈ [x, y]))
  have hx := mem_of_pair_sublist h hnodup
  obtain ⟨first, second, rfl⟩ := List.append_of_mem hx
  rw [List.append_assoc, List.cons_append] at hswap hnodup
  have hy := mem_of_pair_sublist hswap hnodup
  exact (List.nodup_append.mp hnodup).2.2 y hy y (by simp) rfl

/-- Equal scores keep the order they had. -/
theorem not_pair_sublist_best (hnodup : xs.Nodup) (htie : score x = score y)
    (h : List.Sublist [x, y] xs) : ¬ List.Sublist [y, x] (best score k xs) := by
  intro hswap
  have hsorted : List.Sublist [x, y] (byScore score xs) :=
    List.pair_sublist_insertionSort htie.ge h
  have hall : (byScore score xs).Nodup := (byScore_perm score xs).nodup_iff.mpr hnodup
  exact not_pair_sublist_swap hall hsorted (hswap.trans (List.take_sublist _ _))

theorem best_map {γ : Type*} (f : γ → α) (score : α → β) (k : Nat) (xs : List γ) :
    best score k (xs.map f) = (best (fun c => score (f c)) k xs).map f := by
  have hsort : (byScore (fun c => score (f c)) xs).map f = byScore score (xs.map f) :=
    List.map_insertionSort _ (fun a b => score b ≤ score a) f xs fun _ _ _ _ => Iff.rfl
  rw [best, best, List.map_take, hsort]

end Eidetic.Lib
