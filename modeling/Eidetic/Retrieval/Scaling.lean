import Eidetic.Retrieval.Fusion
import Mathlib.Tactic.Positivity

/-!
# The scale of the weighted scores

The similarities and the ranks are both divided by the greatest one, so the
scores are at most one. With a positive similarity the order of the similarities
is kept, but a negative one stays negative; without a positive one nothing is
divided, and no similarity is in the score.

The score of an id is the mean of two shares, each the raw value divided by the
greatest one where that is positive (`weightedScore_eq`). All that is claimed of
the results is about these two numbers: `share_le_one` bounds them from above,
and from below only a negative similarity fails. `WellScaled` is what should
hold of a result and `Queried` what the queries promise of their rows.

That a closer row is returned before the other one is decided by the sign of the
greatest similarity. If it is positive, the shares keep the order even after
rounding (`roundTo_weightedScore_lt`); if not, the scores are those of the
ranks, equal for two such rows, and the order of the set decides
(`outranking_of_order`).
-/

namespace Eidetic.Retrieval

open Eidetic.Lib

variable {ι : Type*}

/-! ## Shares -/

/-- The greatest value of a row, zero when none is positive. -/
def greatest (rows : List (Hit ι)) : Rat := (rows.map Hit.raw).foldl max 0

theorem foldl_max_le {vs : List Rat} {v c : Rat} :
    vs.foldl max v ≤ c ↔ v ≤ c ∧ ∀ x ∈ vs, x ≤ c := by
  induction vs generalizing v with
  | nil => simp
  | cons x vs ih =>
    rw [List.foldl_cons, ih, max_le_iff, List.forall_mem_cons, and_assoc]

theorem foldl_max_cases (vs : List Rat) (v : Rat) : vs.foldl max v = v ∨ vs.foldl max v ∈ vs := by
  induction vs generalizing v with
  | nil => exact Or.inl rfl
  | cons x vs ih =>
    rw [List.foldl_cons]
    rcases ih (max v x) with heq | hmem
    · rw [heq]
      rcases max_choice v x with hv | hx
      · exact Or.inl hv
      · rw [hx]
        exact Or.inr (List.mem_cons_self ..)
    · exact Or.inr (List.mem_cons_of_mem _ hmem)

theorem greatest_le {rows : List (Hit ι)} {c : Rat} :
    greatest rows ≤ c ↔ 0 ≤ c ∧ ∀ r ∈ rows, r.raw ≤ c := by
  rw [greatest, foldl_max_le, List.forall_mem_map]

theorem greatest_nonneg (rows : List (Hit ι)) : 0 ≤ greatest rows :=
  (greatest_le.mp le_rfl).1

theorem raw_le_greatest {rows : List (Hit ι)} {r : Hit ι} (hr : r ∈ rows) :
    r.raw ≤ greatest rows :=
  (greatest_le.mp le_rfl).2 r hr

theorem greatest_pos {rows : List (Hit ι)} (h : ∃ r ∈ rows, 0 < r.raw) : 0 < greatest rows := by
  obtain ⟨r, hr, hpos⟩ := h
  exact lt_of_lt_of_le hpos (raw_le_greatest hr)

theorem exists_greatest {rows : List (Hit ι)} (h : 0 < greatest rows) :
    ∃ r ∈ rows, r.raw = greatest rows := by
  rcases foldl_max_cases (rows.map Hit.raw) 0 with hzero | hmem
  · exact absurd hzero (ne_of_gt h)
  · exact List.mem_map.mp hmem

theorem greatest_eq_zero {rows : List (Hit ι)} (h : ∀ r ∈ rows, r.raw ≤ 0) : greatest rows = 0 :=
  le_antisymm (greatest_le.mpr ⟨le_rfl, h⟩) (greatest_nonneg rows)

variable [DecidableEq ι]

/-- What the row of an id has, zero without a row. -/
def rawOf (rows : List (Hit ι)) (i : ι) : Rat :=
  ((rows.find? fun r => r.id = i).map Hit.raw).getD 0

/-- The part of the greatest value that an id has. -/
def share (rows : List (Hit ι)) (i : ι) : Rat := rawOf rows i / greatest rows

theorem rawOf_of_mem {rows : List (Hit ι)} (hnodup : (rows.map Hit.id).Nodup) {r : Hit ι}
    (hr : r ∈ rows) : rawOf rows r.id = r.raw := by
  induction rows with
  | nil => exact absurd hr List.not_mem_nil
  | cons e rows ih =>
    obtain ⟨hnew, hrest⟩ := List.nodup_cons.mp (by rwa [List.map_cons] at hnodup)
    rcases List.mem_cons.mp hr with rfl | hr
    · simp [rawOf]
    · have hne : ¬ e.id = r.id := fun heq => hnew (heq ▸ List.mem_map_of_mem hr)
      show (((e :: rows).find? fun r' => decide (r'.id = r.id)).map Hit.raw).getD 0 = r.raw
      rw [List.find?_cons_of_neg (by simpa using hne)]
      exact ih hrest hr

theorem share_of_mem {rows : List (Hit ι)} (hnodup : (rows.map Hit.id).Nodup) {r : Hit ι}
    (hr : r ∈ rows) : share rows r.id = r.raw / greatest rows := by
  rw [share, rawOf_of_mem hnodup hr]

/-- The value of an id is zero or that of a row. -/
theorem rawOf_cases (rows : List (Hit ι)) (i : ι) :
    rawOf rows i = 0 ∨ ∃ r ∈ rows, r.id = i ∧ rawOf rows i = r.raw := by
  unfold rawOf
  cases hfind : rows.find? fun r => decide (r.id = i) with
  | none => exact Or.inl rfl
  | some r =>
    have hid := List.find?_some hfind
    exact Or.inr ⟨r, List.mem_of_find?_eq_some hfind, of_decide_eq_true hid, rfl⟩

theorem rawOf_eq_zero {rows : List (Hit ι)} {i : ι} (h : i ∉ rows.map Hit.id) : rawOf rows i = 0 := by
  refine (rawOf_cases rows i).resolve_right fun ⟨r, hr, hid, _⟩ => ?_
  exact h (List.mem_map.mpr ⟨r, hr, hid⟩)

theorem share_le_one (rows : List (Hit ι)) (i : ι) : share rows i ≤ 1 := by
  refine div_le_one_of_le₀ ?_ (greatest_nonneg rows)
  rcases rawOf_cases rows i with hzero | ⟨r, hr, -, hraw⟩
  · rw [hzero]
    exact greatest_nonneg rows
  · rw [hraw]
    exact raw_le_greatest hr

/-! ## What is computed -/

theorem lookup_column_raw {rows : List (Hit ι)} (hnodup : (rows.map Hit.id).Nodup) (i : ι) :
    ((column Hit.raw rows).lookup i).getD 0 = rawOf rows i := by
  by_cases hi : i ∈ rows.map Hit.id
  · obtain ⟨r, hr, rfl⟩ := List.mem_map.mp hi
    rw [lookup_column hnodup Hit.raw hr, rawOf_of_mem hnodup hr]
    rfl
  · rw [rawOf_eq_zero hi, lookup_eq_none_of_not_mem]
    · rfl
    · rw [column_eq hnodup]
      simpa [List.map_map, Function.comp_def] using hi

theorem greatest_eq_max {rows : List (Hit ι)} (hnodup : (rows.map Hit.id).Nodup) (hne : rows ≠ []) :
    greatest rows = max 0 (maxScore (column Hit.raw rows)) := by
  have hvalues : (column Hit.raw rows).map Prod.snd = rows.map Hit.raw := by
    rw [column_eq hnodup, List.map_map]
    rfl
  obtain ⟨r, rest, rfl⟩ := List.exists_cons_of_ne_nil hne
  rw [greatest, maxScore, hvalues, List.map_cons, List.foldl_cons]
  exact List.foldl_assoc

theorem scaled_eq_share {rows : List (Hit ι)} (hnodup : (rows.map Hit.id).Nodup) (i : ι) :
    scaled (column Hit.raw rows) i = share rows i := by
  rw [scaled, lookup_column_raw hnodup, share]
  by_cases hne : rows = []
  · rw [hne]
    simp [rawOf]
  · rw [greatest_eq_max hnodup hne]
    split
    next hpos => rw [max_eq_right hpos.le]
    next hpos => rw [max_eq_left (not_lt.mp hpos), div_zero]

/-- The score of an id, not rounded, is the mean of its shares. -/
theorem weightedScore_eq {vectorRows bm25Rows : List (Hit ι)} (alpha : Rat)
    (hvec : (vectorRows.map Hit.id).Nodup) (hbm : (bm25Rows.map Hit.id).Nodup) (i : ι) :
    weightedScore vectorRows bm25Rows alpha i
      = alpha * share vectorRows i + (1 - alpha) * share bm25Rows i := by
  rw [weightedScore, scaled_eq_share hvec, scaled_eq_share hbm]

/-! ## Well scaled -/

/-- Two rows of one rank, the first one closer by more than what is rounded off. -/
structure Closer (vectorRows bm25Rows : List (Hit ι)) (alpha : Rat) (a b : Hit ι) : Prop where
  left : a ∈ vectorRows
  right : b ∈ vectorRows
  rank : rawOf bm25Rows a.id = rawOf bm25Rows b.id
  similarity : 1 / 10 ^ 6 < alpha * (a.raw - b.raw)

structure WellScaled (vectorRows bm25Rows : List (Hit ι)) (topK : Nat) (alpha : Rat)
    (result : List (Retrieved ι)) : Prop where
  length : result.length = min topK (distinctIds vectorRows bm25Rows)
  nodup : (result.map Retrieved.chunkId).Nodup
  sorted : result.Pairwise fun a b => b.finalScore ≤ a.finalScore
  range : ∀ c ∈ result, 0 ≤ c.finalScore ∧ c.finalScore ≤ 1
  order : ∀ a b, Closer vectorRows bm25Rows alpha a b → b.id ∈ result.map Retrieved.chunkId →
    List.Sublist [a.id, b.id] (result.map Retrieved.chunkId)

/-- What the query asks of the rows. -/
structure Queried (vectorRows bm25Rows : List (Hit ι)) (alpha : Rat) : Prop where
  vectorIds : (vectorRows.map Hit.id).Nodup
  bm25Ids : (bm25Rows.map Hit.id).Nodup
  cosine : ∀ r ∈ vectorRows, -1 ≤ r.raw ∧ r.raw ≤ 1
  ranks : ∀ r ∈ bm25Rows, 0 ≤ r.raw
  alpha_nonneg : 0 ≤ alpha
  alpha_le_one : alpha ≤ 1

/-- The ids that a negative similarity brings below zero. -/
def sinking (vectorRows bm25Rows : List (Hit ι)) (alpha : Rat) : Nat :=
  ((vectorRows ++ bm25Rows).map Hit.id).dedup.countP fun i =>
    alpha * share vectorRows i + (1 - alpha) * share bm25Rows i < -(1 / 2) / 10 ^ 6

/-- The ids whose rank alone is higher than that of an id. -/
def outranking (vectorRows bm25Rows : List (Hit ι)) (alpha : Rat) (i : ι) : Nat :=
  ((vectorRows ++ bm25Rows).map Hit.id).dedup.countP fun j =>
    roundTo 6 ((1 - alpha) * share bm25Rows i) < roundTo 6 ((1 - alpha) * share bm25Rows j)

variable {vectorRows bm25Rows : List (Hit ι)} {alpha : Rat} {topK : Nat} {allIds : List ι}

theorem weightedScore_le_one (h : Queried vectorRows bm25Rows alpha) (i : ι) :
    weightedScore vectorRows bm25Rows alpha i ≤ 1 := by
  rw [weightedScore_eq alpha h.vectorIds h.bm25Ids]
  have hdense : alpha * share vectorRows i ≤ alpha * 1 :=
    mul_le_mul_of_nonneg_left (share_le_one vectorRows i) h.alpha_nonneg
  have hsparse : (1 - alpha) * share bm25Rows i ≤ (1 - alpha) * 1 :=
    mul_le_mul_of_nonneg_left (share_le_one bm25Rows i) (sub_nonneg.mpr h.alpha_le_one)
  linarith

/-- A negative score is not among the best when those that do not sink fill them. -/
theorem forall_best_nonneg_iff (topK : Nat) (h : Queried vectorRows bm25Rows alpha)
    (hids : IsUnion allIds vectorRows bm25Rows) :
    (∀ i ∈ best (fun i => roundTo 6 (weightedScore vectorRows bm25Rows alpha i)) topK allIds,
        0 ≤ roundTo 6 (weightedScore vectorRows bm25Rows alpha i)) ↔
      min topK (distinctIds vectorRows bm25Rows) + sinking vectorRows bm25Rows alpha
        ≤ distinctIds vectorRows bm25Rows := by
  have hsinks : allIds.countP (fun i => ¬ 0 ≤ roundTo 6 (weightedScore vectorRows bm25Rows alpha i))
      = sinking vectorRows bm25Rows alpha := by
    rw [sinking, ← hids.perm.countP_eq]
    refine List.countP_congr fun i _ => ?_
    simp only [decide_eq_true_eq, roundTo_nonneg_iff, not_le,
      weightedScore_eq alpha h.vectorIds h.bm25Ids]
    rw [lt_div_iff₀ (pow_places_pos 6)]
  have hsplit := List.length_eq_countP_add_countP
    (fun i => decide (0 ≤ roundTo 6 (weightedScore vectorRows bm25Rows alpha i))) (l := allIds)
  simp only [decide_eq_true_eq] at hsplit
  rw [forall_best_iff, hids.length]
  rw [hsinks, hids.length] at hsplit
  omega

/-- With a positive similarity the closer one has the higher score. -/
theorem roundTo_weightedScore_lt (h : Queried vectorRows bm25Rows alpha)
    (hpos : ∃ r ∈ vectorRows, 0 < r.raw) {a b : Hit ι} (hab : Closer vectorRows bm25Rows alpha a b) :
    roundTo 6 (weightedScore vectorRows bm25Rows alpha b.id)
      < roundTo 6 (weightedScore vectorRows bm25Rows alpha a.id) := by
  refine roundTo_lt ?_
  have hgreatest := greatest_pos hpos
  have hone : greatest vectorRows ≤ 1 :=
    greatest_le.mpr ⟨zero_le_one, fun r hr => (h.cosine r hr).2⟩
  have hrank : share bm25Rows a.id = share bm25Rows b.id := by rw [share, share, hab.rank]
  have hdiff : weightedScore vectorRows bm25Rows alpha a.id
      - weightedScore vectorRows bm25Rows alpha b.id
      = alpha * (a.raw - b.raw) / greatest vectorRows := by
    rw [weightedScore_eq alpha h.vectorIds h.bm25Ids, weightedScore_eq alpha h.vectorIds h.bm25Ids,
      hrank, share_of_mem h.vectorIds hab.left, share_of_mem h.vectorIds hab.right]
    ring
  rw [hdiff]
  have hnonneg : 0 ≤ alpha * (a.raw - b.raw) := le_trans (by positivity) hab.similarity.le
  calc (1 : Rat) / 10 ^ 6 < alpha * (a.raw - b.raw) := hab.similarity
    _ ≤ alpha * (a.raw - b.raw) / greatest vectorRows := by
        rw [le_div_iff₀ hgreatest]
        exact mul_le_of_le_one_right hnonneg hone

/-- Without one the score is that of the rank. -/
theorem weightedScore_of_no_positive (h : Queried vectorRows bm25Rows alpha)
    (hnone : ∀ r ∈ vectorRows, r.raw ≤ 0) (i : ι) :
    weightedScore vectorRows bm25Rows alpha i = (1 - alpha) * share bm25Rows i := by
  have hzero : share vectorRows i = 0 := by rw [share, greatest_eq_zero hnone, div_zero]
  rw [weightedScore_eq alpha h.vectorIds h.bm25Ids, hzero, mul_zero, zero_add]

/-- The ids of two such rows differ. -/
theorem Closer.ne (h : Queried vectorRows bm25Rows alpha) {a b : Hit ι}
    (hab : Closer vectorRows bm25Rows alpha a b) : a.id ≠ b.id := by
  intro heq
  have hraw : a.raw = b.raw := by
    rw [← rawOf_of_mem h.vectorIds hab.left, ← rawOf_of_mem h.vectorIds hab.right, heq]
  have hsimilarity := hab.similarity
  rw [hraw, sub_self, mul_zero] at hsimilarity
  norm_num at hsimilarity

/-- Without one the set may come with the farther row first, which then comes
first in the result too. -/
theorem outranking_of_order (h : Queried vectorRows bm25Rows alpha)
    (hall : ∀ allIds, IsUnion allIds vectorRows bm25Rows →
      WellScaled vectorRows bm25Rows topK alpha
        (weightedMerge allIds vectorRows bm25Rows topK alpha))
    (hnone : ∀ r ∈ vectorRows, r.raw ≤ 0) {a b : Hit ι} (hab : Closer vectorRows bm25Rows alpha a b) :
    topK ≤ outranking vectorRows bm25Rows alpha b.id := by
  by_contra hfew
  obtain ⟨rest, hids⟩ : ∃ rest, IsUnion (b.id :: rest) vectorRows bm25Rows :=
    exists_isUnion_cons (List.mem_map_of_mem hab.right)
  have hscore := weightedScore_of_no_positive h hnone
  have htie : roundTo 6 (weightedScore vectorRows bm25Rows alpha b.id)
      = roundTo 6 (weightedScore vectorRows bm25Rows alpha a.id) := by
    rw [hscore, hscore, share, share, hab.rank]
  have ha : a.id ∈ rest := by
    have hmem := (hids.mem a.id).mpr (Or.inl (List.mem_map_of_mem hab.left))
    exact (List.mem_cons.mp hmem).resolve_left (hab.ne h)
  have hfirst : List.Sublist [b.id, a.id] (b.id :: rest) :=
    List.Sublist.cons_cons _ (List.singleton_sublist.mpr ha)
  have hbest : b.id ∈ best (fun i => roundTo 6 (weightedScore vectorRows bm25Rows alpha i)) topK
      (b.id :: rest) := by
    refine head_mem_best (Nat.lt_of_le_of_lt ?_ (Nat.lt_of_not_le hfew))
    rw [outranking, ← hids.perm.countP_eq, List.countP_cons]
    simp only [hscore]
    exact Nat.le_add_right _ _
  have horder := (hall _ hids).order a b hab
  rw [weightedMerge_ids] at horder
  exact not_pair_sublist_best hids.nodup htie hfirst (horder hbest)

/-- The closer one of two rows comes before the other one. -/
theorem order_kept (h : Queried vectorRows bm25Rows alpha) (hids : IsUnion allIds vectorRows bm25Rows)
    {a b : Hit ι} (hab : Closer vectorRows bm25Rows alpha a b)
    (hkept : (∃ r ∈ vectorRows, 0 < r.raw) ∨ topK ≤ outranking vectorRows bm25Rows alpha b.id)
    (hb : b.id ∈ best (fun i => roundTo 6 (weightedScore vectorRows bm25Rows alpha i)) topK allIds) :
    List.Sublist [a.id, b.id]
      (best (fun i => roundTo 6 (weightedScore vectorRows bm25Rows alpha i)) topK allIds) := by
  by_cases hpos : ∃ r ∈ vectorRows, 0 < r.raw
  · refine pair_sublist_best (roundTo_weightedScore_lt h hpos hab) ?_ hb
    exact (hids.mem a.id).mpr (Or.inl (List.mem_map_of_mem hab.left))
  · -- those of a higher rank are as many as are returned, and it is not one of them
    have hmany := hkept.resolve_left hpos
    push Not at hpos
    have hfew := few_of_mem_best hb
    simp only [weightedScore_of_no_positive h hpos] at hfew
    rw [outranking, ← hids.perm.countP_eq] at hmany
    omega

/-- The results are well scaled, whatever the order of the set, exactly when the
ids that sink are not needed and a positive similarity, or enough ids of a
higher rank, keep the closer one of two rows before the other. -/
theorem weightedMerge_wellScaled_iff (h : Queried vectorRows bm25Rows alpha) :
    (∀ allIds, IsUnion allIds vectorRows bm25Rows →
        WellScaled vectorRows bm25Rows topK alpha
          (weightedMerge allIds vectorRows bm25Rows topK alpha)) ↔
      min topK (distinctIds vectorRows bm25Rows) + sinking vectorRows bm25Rows alpha
          ≤ distinctIds vectorRows bm25Rows ∧
        ((∃ r ∈ vectorRows, 0 < r.raw) ∨
          ∀ a b, Closer vectorRows bm25Rows alpha a b →
            topK ≤ outranking vectorRows bm25Rows alpha b.id) := by
  constructor
  · intro hall
    constructor
    · have hids := isUnion_dedup vectorRows bm25Rows
      rw [← forall_best_nonneg_iff topK h hids, ← weightedMerge_ids]
      intro i hi
      obtain ⟨c, hc, rfl⟩ := List.mem_map.mp hi
      have hrange := ((hall _ hids).range c hc).1
      obtain ⟨j, -, rfl⟩ := List.mem_map.mp (best_subset hc)
      exact hrange
    · by_cases hpos : ∃ r ∈ vectorRows, 0 < r.raw
      · exact Or.inl hpos
      · push Not at hpos
        exact Or.inr fun a b hab => outranking_of_order h hall hpos hab
  · intro ⟨hsink, hkept⟩ allIds hids
    have hbest := weightedMerge_ids allIds vectorRows bm25Rows topK alpha
    refine ⟨?_, ?_, best_sorted _ _ _, fun c hc => ?_, fun a b hab hb => ?_⟩
    · rw [weightedMerge, length_best, List.length_map, hids.length]
    · rw [hbest]
      exact nodup_best hids.nodup
    · obtain ⟨i, -, rfl⟩ := List.mem_map.mp (best_subset hc)
      have hi := List.mem_map_of_mem (f := Retrieved.chunkId) hc
      rw [hbest] at hi
      refine ⟨(forall_best_nonneg_iff topK h hids).mpr hsink i hi, ?_⟩
      have hround := roundTo_mono 6 (weightedScore_le_one h i)
      rwa [roundTo_one] at hround
    · rw [hbest] at hb ⊢
      exact order_kept h hids hab (hkept.imp_right fun houtranked => houtranked a b hab) hb

def hitOf (i : Nat) (raw : Rat) : Hit Nat := { id := i, sourceId := 0, content := [], raw := raw }

theorem weightedMerge_wellScaled_two :
    WellScaled [hitOf 1 (1 / 2), hitOf 2 (1 / 4)] [hitOf 2 1] 2 (1 / 2)
      (weightedMerge [2, 1] [hitOf 1 (1 / 2), hitOf 2 (1 / 4)] [hitOf 2 1] 2 (1 / 2)) := by
  have hids : IsUnion [2, 1] [hitOf 1 (1 / 2), hitOf 2 (1 / 4)] [hitOf 2 1] :=
    ⟨by decide, fun i => by simp [hitOf]; omega⟩
  refine (weightedMerge_wellScaled_iff ⟨?_, ?_, ?_, ?_, ?_, ?_⟩).mpr ⟨?_, Or.inl ?_⟩ [2, 1] hids
  all_goals decide +kernel

/-- Beside a positive similarity. -/
theorem negative_not_wellScaled : ¬ WellScaled [hitOf 1 (1 / 2), hitOf 2 (-1 / 4)] [] 2 (1 / 2)
    (weightedMerge [1, 2] [hitOf 1 (1 / 2), hitOf 2 (-1 / 4)] [] 2 (1 / 2)) := by
  intro h
  have hscores : (weightedMerge [1, 2] [hitOf 1 (1 / 2), hitOf 2 (-1 / 4)] [] 2 (1 / 2)).map
      Retrieved.finalScore = [1 / 2, -1 / 4] := by decide +kernel
  have hmem : (-1 / 4 : Rat) ∈ [1 / 2, -1 / 4] := by simp
  obtain ⟨c, hc, hlow⟩ := List.mem_map.mp (hscores ▸ hmem)
  have hrange := (h.range c hc).1
  rw [hlow] at hrange
  norm_num at hrange

/-- Two negative similarities. -/
theorem farther_not_wellScaled : ¬ WellScaled [hitOf 1 (-1 / 4), hitOf 2 (-1 / 2)] [] 1 (1 / 2)
    (weightedMerge [2, 1] [hitOf 1 (-1 / 4), hitOf 2 (-1 / 2)] [] 1 (1 / 2)) := by
  intro h
  have hids : (weightedMerge [2, 1] [hitOf 1 (-1 / 4), hitOf 2 (-1 / 2)] [] 1 (1 / 2)).map
      Retrieved.chunkId = [2] := by decide +kernel
  have horder := h.order (hitOf 1 (-1 / 4)) (hitOf 2 (-1 / 2))
    ⟨by decide +kernel, by decide +kernel, by decide, by decide +kernel⟩
  rw [hids] at horder
  exact absurd (horder (by decide)) (by decide)

/-- A negative similarity beside a positive one gives a negative score, and of
two negative ones the farther one may be the one that is returned. -/
theorem weightedMerge_not_wellScaled :
    (Queried [hitOf 1 (1 / 2), hitOf 2 (-1 / 4)] [] (1 / 2) ∧
      IsUnion [1, 2] [hitOf 1 (1 / 2), hitOf 2 (-1 / 4)] [] ∧
      ¬ WellScaled [hitOf 1 (1 / 2), hitOf 2 (-1 / 4)] [] 2 (1 / 2)
          (weightedMerge [1, 2] [hitOf 1 (1 / 2), hitOf 2 (-1 / 4)] [] 2 (1 / 2))) ∧
      Queried [hitOf 1 (-1 / 4), hitOf 2 (-1 / 2)] [] (1 / 2) ∧
      IsUnion [2, 1] [hitOf 1 (-1 / 4), hitOf 2 (-1 / 2)] [] ∧
      ¬ WellScaled [hitOf 1 (-1 / 4), hitOf 2 (-1 / 2)] [] 1 (1 / 2)
          (weightedMerge [2, 1] [hitOf 1 (-1 / 4), hitOf 2 (-1 / 2)] [] 1 (1 / 2)) := by
  refine ⟨⟨⟨?_, ?_, ?_, ?_, ?_, ?_⟩, ⟨?_, ?_⟩, negative_not_wellScaled⟩,
    ⟨?_, ?_, ?_, ?_, ?_, ?_⟩, ⟨?_, ?_⟩, farther_not_wellScaled⟩
  all_goals first | decide +kernel | simp [hitOf, or_comm]

end Eidetic.Retrieval
