import Mathlib.Data.List.Induction
import Eidetic.Lib.Best
import Eidetic.Lib.Dict

/-!
# A bounded table of counts

Keys are counted batch by batch; when a batch leaves more than `n` keys in the
table, the `n` with the highest counts stay. A key has the count it has been
given since it last left the table (`exists_since`). A full table keeps a new
key out however often it comes, when it comes alone and once at a time
(`full_keeps_out`).

The table is a dictionary in its order, as equal counts are cut by it; between
two batches it may come back in another order, which is a parameter. What is in
the table after a batch has what it had and what the batch gave
(`tallied_step`), and a key goes only when `n` others have as much
(`others_of_evicted`); both are by the facts on the best by a score. The results
on runs are by induction from the end.
-/

namespace Eidetic.Lib

variable {κ : Type*}

/-- The `n` highest counts of a table that has more. -/
def cut (n : Nat) (d : List (κ × Nat)) : List (κ × Nat) :=
  if n < d.length then best Prod.snd n d else d

/-- A table that is stored may come back in another order. -/
structure Reordering (κ : Type*) where
  order : List (κ × Nat) → List (κ × Nat)
  perm : ∀ d, (order d).Perm d

section

variable {o : Reordering κ} {n : Nat} {d : List (κ × Nat)} {k : κ}

theorem cut_subset {x : κ × Nat} (h : x ∈ cut n d) : x ∈ d := by
  unfold cut at h
  split at h
  next => exact best_subset h
  next => exact h

theorem nodup_keys_cut (h : (d.map Prod.fst).Nodup) (n : Nat) : ((cut n d).map Prod.fst).Nodup := by
  unfold cut
  split
  next =>
    refine ((List.take_sublist n (byScore Prod.snd d)).map Prod.fst).nodup ?_
    exact ((byScore_perm Prod.snd d).map Prod.fst).nodup_iff.mpr h
  next => exact h

theorem mem_keys_order : k ∈ (o.order d).map Prod.fst ↔ k ∈ d.map Prod.fst :=
  ((o.perm d).map Prod.fst).mem_iff

theorem nodup_keys_order (o : Reordering κ) (h : (d.map Prod.fst).Nodup) :
    ((o.order d).map Prod.fst).Nodup :=
  ((o.perm d).map Prod.fst).nodup_iff.mpr h

end

theorem countP_le_add {α : Type*} {p q r : α → Bool}
    (h : ∀ x, p x = true → q x = true ∨ r x = true) (xs : List α) :
    xs.countP p ≤ xs.countP q + xs.countP r := by
  induction xs with
  | nil => exact Nat.le_refl 0
  | cons x xs ih =>
    rw [List.countP_cons, List.countP_cons, List.countP_cons]
    by_cases hp : p x = true
    · rw [if_pos hp]
      rcases h x hp with hq | hr
      · rw [if_pos hq]
        omega
      · rw [if_pos hr]
        omega
    · rw [if_neg hp]
      omega

variable [DecidableEq κ]

/-- `d[k] = d.get(k, 0) + 1` for keys in a row. -/
def tally (d : List (κ × Nat)) (ks : List κ) : List (κ × Nat) :=
  ks.foldl (fun d k => putItem d k ((d.lookup k).getD 0 + 1)) d

/-- `d.get(k, 0)`. -/
def tallied (d : List (κ × Nat)) (k : κ) : Nat := (d.lookup k).getD 0

/-- How often a key comes. -/
def occurrences (ks : List κ) (k : κ) : Nat := ks.count k

/-- One batch. -/
def tallyStep (o : Reordering κ) (n : Nat) (d : List (κ × Nat)) (ks : List κ) : List (κ × Nat) :=
  cut n (tally (o.order d) ks)

def tallyRun (o : Reordering κ) (n : Nat) (batches : List (List κ)) : List (κ × Nat) :=
  batches.foldl (tallyStep o n) []

variable {o : Reordering κ} {n : Nat} {d e : List (κ × Nat)} {k : κ}

/-! ## Counting -/

theorem tally_cons (d : List (κ × Nat)) (k : κ) (ks : List κ) :
    tally d (k :: ks) = tally (putItem d k (tallied d k + 1)) ks := rfl

theorem tallied_putItem (d : List (κ × Nat)) (k k' : κ) (c : Nat) :
    tallied (putItem d k c) k' = if k' = k then c else tallied d k' := by
  unfold tallied
  rw [lookup_putItem]
  split
  next => rfl
  next => rfl

theorem occurrences_pos {ks : List κ} (h : k ∈ ks) : 0 < occurrences ks k := List.count_pos_iff.mpr h

theorem tallied_of_not_mem (h : k ∉ d.map Prod.fst) : tallied d k = 0 := by
  rw [tallied, lookup_eq_none_of_not_mem h, Option.getD_none]

theorem tallied_of_mem (h : (d.map Prod.fst).Nodup) {c : Nat} (hmem : (k, c) ∈ d) :
    tallied d k = c := by
  rw [tallied, lookup_of_mem h hmem, Option.getD_some]

theorem mem_of_tallied (h : k ∈ d.map Prod.fst) : (k, tallied d k) ∈ d := by
  obtain ⟨c, hc⟩ := exists_lookup h
  have heq : tallied d k = c := by rw [tallied, hc, Option.getD_some]
  rw [heq]
  exact mem_of_lookup hc

theorem tallied_perm (h : (d.map Prod.fst).Nodup) (hperm : d.Perm e) (k : κ) :
    tallied e k = tallied d k := by
  by_cases hk : k ∈ d.map Prod.fst
  · exact tallied_of_mem ((hperm.map Prod.fst).nodup_iff.mp h) (hperm.mem_iff.mp (mem_of_tallied hk))
  · rw [tallied_of_not_mem hk,
      tallied_of_not_mem fun hmem => hk ((hperm.map Prod.fst).mem_iff.mpr hmem)]

/-- Every key has what it had and once more for each time it comes. -/
theorem tallied_tally (d : List (κ × Nat)) (ks : List κ) (k : κ) :
    tallied (tally d ks) k = tallied d k + occurrences ks k := by
  induction ks generalizing d with
  | nil => rfl
  | cons k' ks ih =>
    rw [tally_cons, ih, tallied_putItem, occurrences, occurrences, List.count_cons]
    by_cases hk : k = k'
    · rw [if_pos hk, hk, beq_self_eq_true, if_pos rfl]
      omega
    · rw [if_neg hk, beq_false_of_ne (Ne.symm hk), if_neg Bool.false_ne_true, Nat.add_zero]

theorem mem_keys_tally {ks : List κ} :
    k ∈ (tally d ks).map Prod.fst ↔ k ∈ d.map Prod.fst ∨ k ∈ ks := by
  induction ks generalizing d with
  | nil => simp [tally]
  | cons k' ks ih => rw [tally_cons, ih, mem_keys_putItem, List.mem_cons, or_assoc]

theorem nodup_keys_tally (h : (d.map Prod.fst).Nodup) (ks : List κ) :
    ((tally d ks).map Prod.fst).Nodup := by
  induction ks generalizing d with
  | nil => exact h
  | cons k ks ih =>
    rw [tally_cons]
    exact ih (nodup_keys_putItem h _ _)

/-! ## Cutting -/

/-- A key that stays keeps its count. -/
theorem tallied_cut (h : (d.map Prod.fst).Nodup) (hk : k ∈ (cut n d).map Prod.fst) :
    tallied (cut n d) k = tallied d k :=
  (tallied_of_mem h (cut_subset (mem_of_tallied hk))).symm

/-- A key goes only when `n` others have a count at least as high. -/
theorem others_of_cut (h : (d.map Prod.fst).Nodup) (hk : k ∈ d.map Prod.fst)
    (hgone : k ∉ (cut n d).map Prod.fst) :
    n ≤ d.countP fun e => e.1 ≠ k ∧ tallied d k ≤ e.2 := by
  have hmem := mem_of_tallied hk
  have hbest : (k, tallied d k) ∉ best Prod.snd n d := by
    intro hbest
    refine hgone (List.mem_map.mpr ⟨(k, tallied d k), ?_, rfl⟩)
    unfold cut
    split
    next => exact hbest
    next => exact hmem
  have hmany : n < d.countP fun e => tallied d k ≤ e.2 :=
    Nat.lt_of_not_le fun hfew => hbest (mem_best_of_few hmem hfew)
  -- one of them is the key itself
  have hsplit : (d.countP fun e => tallied d k ≤ e.2)
      ≤ (d.countP fun e => e.1 ≠ k ∧ tallied d k ≤ e.2) + d.countP fun e => e.1 = k := by
    refine countP_le_add (fun e he => ?_) d
    by_cases hself : e.1 = k
    · exact Or.inr (decide_eq_true hself)
    · exact Or.inl (decide_eq_true ⟨hself, of_decide_eq_true he⟩)
  have hself : (d.countP fun e => e.1 = k) ≤ 1 := by
    have hcount := List.nodup_iff_count_le_one.mp h k
    rw [List.count, List.countP_map] at hcount
    refine Nat.le_trans (List.countP_mono_left fun e _ he => ?_) hcount
    exact beq_iff_eq.mpr (of_decide_eq_true he)
  omega

/-! ## Runs -/

/-- A batch after which a key that was counted is not in the table. -/
def Evicted (o : Reordering κ) (n : Nat) (d : List (κ × Nat)) (ks : List κ) (k : κ) : Prop :=
  k ∈ (tally (o.order d) ks).map Prod.fst ∧ k ∉ (tallyStep o n d ks).map Prod.fst

theorem nodup_keys_step (o : Reordering κ) (n : Nat) (h : (d.map Prod.fst).Nodup) (ks : List κ) :
    ((tallyStep o n d ks).map Prod.fst).Nodup :=
  nodup_keys_cut (nodup_keys_tally (nodup_keys_order o h) ks) n

/-- A key that is in the table after a batch has what it had and what the batch gave. -/
theorem tallied_step (h : (d.map Prod.fst).Nodup) {ks : List κ}
    (hk : k ∈ (tallyStep o n d ks).map Prod.fst) :
    tallied (tallyStep o n d ks) k = tallied d k + occurrences ks k := by
  have horder := nodup_keys_order o h
  rw [tallyStep, tallied_cut (nodup_keys_tally horder ks) hk, tallied_tally]
  congr 1
  exact tallied_perm h (o.perm d).symm k

theorem not_mem_of_unevicted {ks : List κ} (h : ¬ Evicted o n d ks k)
    (hk : k ∉ (tallyStep o n d ks).map Prod.fst) : k ∉ d.map Prod.fst ∧ k ∉ ks := by
  have hgrown : k ∉ (tally (o.order d) ks).map Prod.fst := fun hmem => h ⟨hmem, hk⟩
  rw [mem_keys_tally, mem_keys_order] at hgrown
  exact not_or.mp hgrown

theorem others_of_evicted (h : (d.map Prod.fst).Nodup) {ks : List κ} (hev : Evicted o n d ks k) :
    n ≤ (tally (o.order d) ks).countP
      fun e => e.1 ≠ k ∧ tallied (tally (o.order d) ks) k ≤ e.2 :=
  others_of_cut (nodup_keys_tally (nodup_keys_order o h) ks) hev.1 hev.2

theorem tallyRun_concat (o : Reordering κ) (n : Nat) (batches : List (List κ)) (ks : List κ) :
    tallyRun o n (batches ++ [ks]) = tallyStep o n (tallyRun o n batches) ks := by
  rw [tallyRun, List.foldl_append]
  rfl

theorem nodup_keys_run (o : Reordering κ) (n : Nat) (batches : List (List κ)) :
    ((tallyRun o n batches).map Prod.fst).Nodup := by
  induction batches using List.reverseRecOn with
  | nil => exact List.nodup_nil
  | append_singleton batches ks ih =>
    rw [tallyRun_concat]
    exact nodup_keys_step o n ih ks

/-- A key has the count it was given since it was last not in the table. -/
theorem exists_since (o : Reordering κ) (n : Nat) (batches : List (List κ)) (k : κ) :
    ∃ before since, batches = before ++ since ∧ k ∉ (tallyRun o n before).map Prod.fst ∧
      tallied (tallyRun o n batches) k = occurrences since.flatten k := by
  induction batches using List.reverseRecOn with
  | nil => exact ⟨[], [], rfl, List.not_mem_nil, rfl⟩
  | append_singleton batches ks ih =>
    by_cases hk : k ∈ (tallyRun o n (batches ++ [ks])).map Prod.fst
    · obtain ⟨before, since, rfl, hbefore, hcount⟩ := ih
      refine ⟨before, since ++ [ks], List.append_assoc .., hbefore, ?_⟩
      rw [tallyRun_concat] at hk ⊢
      rw [tallied_step (nodup_keys_run o n _) hk, hcount, List.flatten_append,
        List.flatten_singleton, occurrences, occurrences, occurrences, List.count_append]
    · exact ⟨batches ++ [ks], [], (List.append_nil _).symm, hk, tallied_of_not_mem hk⟩

/-- No key has a higher count than the times it came. -/
theorem tallied_run_le (o : Reordering κ) (n : Nat) (batches : List (List κ)) (k : κ) :
    tallied (tallyRun o n batches) k ≤ occurrences batches.flatten k := by
  obtain ⟨before, since, heq, -, hcount⟩ := exists_since o n batches k
  rw [hcount, heq, List.flatten_append, occurrences, occurrences, List.count_append]
  exact Nat.le_add_left _ _

/-! ## A full table -/

theorem pos_of_tally (h : ∀ e ∈ d, 0 < e.2) (ks : List κ) : ∀ e ∈ tally d ks, 0 < e.2 := by
  induction ks generalizing d with
  | nil => exact h
  | cons k ks ih =>
    rw [tally_cons]
    refine ih fun e he => ?_
    unfold putItem at he
    split at he
    next =>
      obtain ⟨e', he', rfl⟩ := List.mem_map.mp he
      split
      next => exact Nat.succ_pos _
      next => exact h e' he'
    next =>
      rcases List.mem_append.mp he with he | he
      · exact h e he
      · rw [List.mem_singleton.mp he]
        exact Nat.succ_pos _

theorem pos_of_run (o : Reordering κ) (n : Nat) (batches : List (List κ)) :
    ∀ e ∈ tallyRun o n batches, 0 < e.2 := by
  induction batches using List.reverseRecOn with
  | nil => exact fun e he => absurd he List.not_mem_nil
  | append_singleton batches ks ih =>
    rw [tallyRun_concat]
    intro e he
    exact pos_of_tally (fun e he => ih e ((o.perm _).mem_iff.mp he)) ks e (cut_subset he)

/-- A new key that comes once does not get into a full table. -/
theorem tallyStep_full (h : (d.map Prod.fst).Nodup) (hfull : d.length = n)
    (hpos : ∀ e ∈ d, 0 < e.2) (hk : k ∉ d.map Prod.fst) : (tallyStep o n d [k]).Perm d := by
  have horder := nodup_keys_order o h
  have hnew : k ∉ (o.order d).map Prod.fst := fun hmem => hk (mem_keys_order.mp hmem)
  have hlength : (o.order d).length = n := (o.perm d).length_eq.trans hfull
  have hgrown : tally (o.order d) [k] = o.order d ++ [(k, 1)] := by
    show putItem (o.order d) k (tallied (o.order d) k + 1) = _
    rw [putItem, if_neg hnew, tallied_of_not_mem hnew]
  have hnodup : (o.order d ++ [(k, 1)]).Nodup := by
    rw [← hgrown]
    exact (nodup_keys_tally horder [k]).of_map
  have hout : (k, 1) ∉ best Prod.snd n (o.order d ++ [(k, 1)]) := by
    rw [last_mem_best_iff hnodup, Nat.not_lt]
    refine hlength.ge.trans (Nat.le_of_eq (List.countP_eq_length.mpr fun e he => ?_).symm)
    exact decide_eq_true (hpos e ((o.perm d).mem_iff.mp he))
  rw [tallyStep, cut, hgrown, if_pos (by rw [List.length_append, hlength]; exact Nat.lt_succ_self n)]
  -- the best are `n` of the old entries, which are all of them
  have hsub : best Prod.snd n (o.order d ++ [(k, 1)]) ⊆ o.order d := by
    intro e he
    refine (List.mem_append.mp (best_subset he)).resolve_right fun hlast => ?_
    rw [List.mem_singleton.mp hlast] at he
    exact hout he
  have hperm : (best Prod.snd n (o.order d ++ [(k, 1)])).Perm (o.order d) := by
    refine (List.subperm_of_subset (nodup_best hnodup) hsub).perm_of_length_le ?_
    rw [length_best, List.length_append, hlength]
    exact Nat.le_min.mpr ⟨Nat.le_refl n, Nat.le_add_right n _⟩
  exact hperm.trans (o.perm d)

/-- However often it comes. -/
theorem full_keeps_out (h : (d.map Prod.fst).Nodup) (hfull : d.length = n)
    (hpos : ∀ e ∈ d, 0 < e.2) (hk : k ∉ d.map Prod.fst) (m : Nat) :
    ((List.replicate m [k]).foldl (tallyStep o n) d).Perm d := by
  induction m generalizing d with
  | zero => exact List.Perm.refl d
  | succ m ih =>
    have hstep : (tallyStep o n d [k]).Perm d := tallyStep_full h hfull hpos hk
    rw [List.replicate_succ, List.foldl_cons]
    refine (ih ((hstep.map Prod.fst).nodup_iff.mpr h) (hstep.length_eq.trans hfull) ?_ ?_).trans hstep
    · exact fun e he => hpos e (hstep.mem_iff.mp he)
    · exact fun hmem => hk ((hstep.map Prod.fst).mem_iff.mp hmem)

end Eidetic.Lib
