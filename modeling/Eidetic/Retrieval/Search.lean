import Eidetic.Retrieval.Fusion

/-!
# The search endpoint

`_fuse` of the file search, beside the two merges of the chat. It adds the
reciprocal ranks up in one dictionary, and it sorts by scores that are not
rounded. The ids, the scores and, up to equal ones, the order are those of the
merges.

The dictionary of the search adds up what the merge adds in one expression, in
the order of the two lists, so every id has the same score
(`lookup_fuseScores`), and its keys are the ids of both lists
(`isUnion_fuseScores`). The orders are compared through `Ranking`: both results
are the best ids in the order of the rounded scores, which leaves them equal
where no two of these are. That the search sorts before it rounds makes no
difference to that, as rounding keeps an order (`ranking_best_rounded`).
-/

namespace Eidetic.Retrieval

open Eidetic.Lib Eidetic.Py

/-- A row of the search. -/
structure SearchRow (ι : Type*) where
  cid : ι
  content : Text
  fileId : ι
  filename : Text
  raw : Rat
deriving DecidableEq

/-- The row as the query of the chat has it. -/
def SearchRow.hit {ι : Type*} (r : SearchRow ι) : Hit ι where
  id := r.cid
  sourceId := r.fileId
  content := r.content
  raw := r.raw

structure SearchResult (ι : Type*) where
  fileId : ι
  filename : Text
  chunk : Text
deriving DecidableEq

/-- An entry of `debug_info`. -/
structure FuseDebug (ι : Type*) where
  chunkId : ι
  fileId : ι
  filename : Text
  score : Rat
  rank : Nat
  fusionMode : Text
deriving DecidableEq

variable {ι : Type*}

theorem map_hit_id (rows : List (SearchRow ι)) :
    (rows.map SearchRow.hit).map Hit.id = rows.map SearchRow.cid := by
  rw [List.map_map]
  rfl

/-- The reciprocal ranks that are added. -/
def rankParts (rows : List (SearchRow ι)) : List (ι × Rat) :=
  rows.mapIdx fun rank r => (r.cid, reciprocal rank)

theorem keys_rankParts (rows : List (SearchRow ι)) :
    (rankParts rows).map Prod.fst = rows.map SearchRow.cid := by
  refine map_mapIdx (fun rank r => ?_) rows
  rfl

variable [DecidableEq ι]

/-- `scores` under `"weighted"`, with the ids in the order of the set. -/
def fuseWeighted (allIds : List ι) (vecRows bm25Rows : List (SearchRow ι)) (alpha : Rat) :
    List (ι × Rat) :=
  let denseRaw := putItems [] (vecRows.map fun r => (r.cid, r.raw))
  let sparseRaw := putItems [] (bm25Rows.map fun r => (r.cid, r.raw))
  putItems [] (allIds.map fun i =>
    (i, alpha * scaled denseRaw i + (1 - alpha) * scaled sparseRaw i))

/-- `scores` otherwise. -/
def fuseRrf (vecRows bm25Rows : List (SearchRow ι)) : List (ι × Rat) :=
  addItems (addItems [] (rankParts vecRows)) (rankParts bm25Rows)

/-- `scores`. -/
def fuseScores (allIds : List ι) (vecRows bm25Rows : List (SearchRow ι)) (fusionMode : Text)
    (alpha : Rat) : List (ι × Rat) :=
  if fusionMode = "weighted".toList then fuseWeighted allIds vecRows bm25Rows alpha
  else fuseRrf vecRows bm25Rows

/-- What is kept of a row in `meta`. -/
def metaOf (r : SearchRow ι) : ι × (Text × ι × Text) := (r.cid, r.content, r.fileId, r.filename)

/-- `meta`. -/
def fuseMeta (vecRows bm25Rows : List (SearchRow ι)) (fusionMode : Text) :
    List (ι × (Text × ι × Text)) :=
  if fusionMode = "weighted".toList then
    putDefaults (putItems [] (vecRows.map metaOf)) (bm25Rows.map metaOf)
  else putItems (putItems [] (vecRows.map metaOf)) (bm25Rows.map metaOf)

/-- `sorted(scores, key=lambda x: -scores[x])[:top_k]`. -/
def sortedIds (scores : List (ι × Rat)) (topK : Nat) : List ι :=
  best (fun i => (scores.lookup i).getD 0) topK (scores.map Prod.fst)

/-- `_fuse` with `debug=True`; without it the first list alone is returned. It is
`none` when an id is not in `meta`. -/
def fuse (allIds : List ι) (vecRows bm25Rows : List (SearchRow ι)) (topK : Nat) (fusionMode : Text)
    (alpha : Rat) : Option (List (SearchResult ι) × List (FuseDebug ι)) :=
  let scores := fuseScores allIds vecRows bm25Rows fusionMode alpha
  ((sortedIds scores topK).mapM fun i =>
      ((fuseMeta vecRows bm25Rows fusionMode).lookup i).map fun m => (i, m)).map fun found =>
    (found.map fun f => { fileId := f.2.2.1, filename := f.2.2.2, chunk := f.2.1 },
      found.mapIdx fun rank f =>
        { chunkId := f.1, fileId := f.2.2.1, filename := f.2.2.2,
          score := roundTo 6 ((scores.lookup f.1).getD 0), rank := rank + 1,
          fusionMode := fusionMode })

/-! ## The merges of the chat -/

/-- The merge of a fusion mode. -/
def mergeOf (fusionMode : Text) (allIds : List ι) (vectorRows bm25Rows : List (Hit ι)) (topK : Nat)
    (alpha : Rat) : List (Retrieved ι) :=
  if fusionMode = "weighted".toList then weightedMerge allIds vectorRows bm25Rows topK alpha
  else rrfMerge allIds vectorRows bm25Rows topK

/-- The score that it has for an id before it is rounded. -/
def scoreOf (fusionMode : Text) (vectorRows bm25Rows : List (Hit ι)) (alpha : Rat) (i : ι) : Rat :=
  if fusionMode = "weighted".toList then weightedScore vectorRows bm25Rows alpha i
  else rrfScore vectorRows bm25Rows i

variable {allIds : List ι} {vecRows bm25Rows : List (SearchRow ι)}

/-- The column of the raw values is the same. -/
theorem column_map_hit (rows : List (SearchRow ι)) :
    column Hit.raw (rows.map SearchRow.hit) = putItems [] (rows.map fun r => (r.cid, r.raw)) := by
  rw [column, List.map_map]
  rfl

theorem scaled_of_not_mem {scores : List (ι × Rat)} {i : ι} (h : i ∉ scores.map Prod.fst) :
    scaled scores i = 0 := by
  rw [scaled, lookup_eq_none_of_not_mem h, Option.getD_none, zero_div, ite_self]

theorem mem_keys_column {ν : Type*} (value : Hit ι → ν) (rows : List (Hit ι)) (i : ι) :
    i ∈ (column value rows).map Prod.fst ↔ i ∈ rows.map Hit.id := by
  rw [column, mem_keys_putItems, List.map_map]
  simp [Function.comp_def]

theorem weightedScore_of_not_mem {vectorRows bm25Rows : List (Hit ι)} {alpha : Rat} {i : ι}
    (hvec : i ∉ vectorRows.map Hit.id) (hbm : i ∉ bm25Rows.map Hit.id) :
    weightedScore vectorRows bm25Rows alpha i = 0 := by
  rw [← mem_keys_column Hit.raw] at hvec hbm
  rw [weightedScore, scaled_of_not_mem hvec, scaled_of_not_mem hbm, mul_zero, mul_zero, add_zero]

/-- The merge has the same reciprocal ranks. -/
theorem reciprocals_map_hit {rows : List (SearchRow ι)} (h : (rows.map SearchRow.cid).Nodup) :
    reciprocals (rows.map SearchRow.hit) = rankParts rows := by
  have hparts : (rows.map SearchRow.hit).mapIdx (fun rank r => (r.id, reciprocal rank))
      = rankParts rows := by
    refine List.mapIdx_eq_iff.mpr fun n => ?_
    rw [rankParts, List.getElem?_mapIdx, List.getElem?_map, Option.map_map]
    rfl
  rw [reciprocals, hparts]
  refine putItems_of_new (d := []) ?_
  rwa [List.nil_append, keys_rankParts]

/-! ## Scores -/

theorem fuseWeighted_eq
    (hids : IsUnion allIds (vecRows.map SearchRow.hit) (bm25Rows.map SearchRow.hit)) (alpha : Rat) :
    fuseWeighted allIds vecRows bm25Rows alpha = allIds.map fun i =>
      (i, weightedScore (vecRows.map SearchRow.hit) (bm25Rows.map SearchRow.hit) alpha i) := by
  unfold fuseWeighted weightedScore
  simp only [column_map_hit]
  refine putItems_of_new (d := []) ?_
  simpa [List.map_map, Function.comp_def] using hids.nodup

/-- The keys of `scores` are the ids of both lists. -/
theorem isUnion_fuseScores
    (hids : IsUnion allIds (vecRows.map SearchRow.hit) (bm25Rows.map SearchRow.hit))
    (fusionMode : Text) (alpha : Rat) :
    IsUnion ((fuseScores allIds vecRows bm25Rows fusionMode alpha).map Prod.fst)
      (vecRows.map SearchRow.hit) (bm25Rows.map SearchRow.hit) := by
  unfold fuseScores
  split
  next =>
    rw [fuseWeighted_eq hids, List.map_map]
    exact (List.map_id allIds).symm ▸ hids
  next =>
    refine ⟨nodup_keys_addItems (nodup_keys_addItems (d := []) List.nodup_nil _) _, fun i => ?_⟩
    rw [fuseRrf, mem_keys_addItems, mem_keys_addItems, keys_rankParts, keys_rankParts, map_hit_id,
      map_hit_id]
    simp

/-- Every id has the score of the merge. -/
theorem lookup_fuseScores (hvec : (vecRows.map SearchRow.cid).Nodup)
    (hbm : (bm25Rows.map SearchRow.cid).Nodup)
    (hids : IsUnion allIds (vecRows.map SearchRow.hit) (bm25Rows.map SearchRow.hit))
    (fusionMode : Text) (alpha : Rat) (i : ι) :
    ((fuseScores allIds vecRows bm25Rows fusionMode alpha).lookup i).getD 0
      = scoreOf fusionMode (vecRows.map SearchRow.hit) (bm25Rows.map SearchRow.hit) alpha i := by
  unfold fuseScores scoreOf
  split
  next =>
    rw [fuseWeighted_eq hids]
    by_cases hi : i ∈ allIds
    · rw [lookup_of_mem (v := weightedScore _ _ alpha i)]
      · rfl
      · simpa [List.map_map, Function.comp_def] using hids.nodup
      · exact List.mem_map.mpr ⟨i, hi, rfl⟩
    · have hnone := (hids.mem i).not.mp hi
      rw [not_or] at hnone
      rw [weightedScore_of_not_mem hnone.1 hnone.2, lookup_eq_none_of_not_mem]
      · rfl
      · simpa [List.map_map, Function.comp_def] using hi
  next =>
    rw [fuseRrf, lookup_addItems _ (by rwa [keys_rankParts]),
      lookup_addItems _ (by rwa [keys_rankParts]), rrfScore, reciprocals_map_hit hvec,
      reciprocals_map_hit hbm, List.lookup_nil, Option.getD_none, zero_add]

/-! ## The order -/

/-- The ids that are returned, and in which order. -/
structure Ranking (score : ι → Rat) (n topK : Nat) (ids : List ι) : Prop where
  length : ids.length = min topK n
  nodup : ids.Nodup
  sorted : ids.Pairwise fun i j => roundTo 6 (score j) ≤ roundTo 6 (score i)

/-- The ids of a merge. -/
theorem mergeOf_ids (fusionMode : Text) (allIds : List ι) (vectorRows bm25Rows : List (Hit ι))
    (topK : Nat) (alpha : Rat) :
    (mergeOf fusionMode allIds vectorRows bm25Rows topK alpha).map Retrieved.chunkId
      = if fusionMode = "weighted".toList then
          best (fun i => roundTo 6 (scoreOf fusionMode vectorRows bm25Rows alpha i)) topK allIds
        else best (scoreOf fusionMode vectorRows bm25Rows alpha) topK allIds := by
  unfold mergeOf scoreOf
  split
  next => exact weightedMerge_ids ..
  next => exact rrfMerge_ids ..

theorem ranking_best {vectorRows bm25Rows : List (Hit ι)} (hids : IsUnion allIds vectorRows bm25Rows)
    (score : ι → Rat) (topK : Nat) :
    Ranking score (distinctIds vectorRows bm25Rows) topK (best score topK allIds) where
  length := by rw [length_best, hids.length]
  nodup := nodup_best hids.nodup
  sorted := (best_sorted score topK allIds).imp fun hle => roundTo_mono 6 hle

theorem ranking_best_rounded {vectorRows bm25Rows : List (Hit ι)}
    (hids : IsUnion allIds vectorRows bm25Rows) (score : ι → Rat) (topK : Nat) :
    Ranking score (distinctIds vectorRows bm25Rows) topK
      (best (fun i => roundTo 6 (score i)) topK allIds) where
  length := by rw [length_best, hids.length]
  nodup := nodup_best hids.nodup
  sorted := best_sorted _ topK allIds

/-- The ids that the search returns are the best ones of their scores. -/
theorem sortedIds_fuseScores (hvec : (vecRows.map SearchRow.cid).Nodup)
    (hbm : (bm25Rows.map SearchRow.cid).Nodup)
    (hids : IsUnion allIds (vecRows.map SearchRow.hit) (bm25Rows.map SearchRow.hit))
    (fusionMode : Text) (alpha : Rat) (topK : Nat) :
    sortedIds (fuseScores allIds vecRows bm25Rows fusionMode alpha) topK
      = best (scoreOf fusionMode (vecRows.map SearchRow.hit) (bm25Rows.map SearchRow.hit) alpha) topK
          ((fuseScores allIds vecRows bm25Rows fusionMode alpha).map Prod.fst) := by
  unfold sortedIds
  congr 1
  funext i
  exact lookup_fuseScores hvec hbm hids fusionMode alpha i

theorem mapM_lookup {ν : Type*} {d : List (ι × ν)} :
    ∀ {ids : List ι}, (∀ i ∈ ids, i ∈ d.map Prod.fst) →
      ∃ found, (ids.mapM fun i => (d.lookup i).map fun v => (i, v)) = some found ∧
        found.map Prod.fst = ids
  | [], _ => ⟨[], rfl, rfl⟩
  | i :: ids, h => by
    obtain ⟨v, hv⟩ := exists_lookup (h i (List.mem_cons_self ..))
    obtain ⟨found, hfound, hids⟩ := mapM_lookup fun j hj => h j (List.mem_cons_of_mem _ hj)
    refine ⟨(i, v) :: found, ?_, by rw [List.map_cons, hids]⟩
    rw [List.mapM_cons, hv, hfound]
    rfl

/-- No id is missing in `meta`. -/
theorem mem_keys_fuseMeta (vecRows bm25Rows : List (SearchRow ι)) (fusionMode : Text) (i : ι) :
    i ∈ (fuseMeta vecRows bm25Rows fusionMode).map Prod.fst ↔
      i ∈ vecRows.map SearchRow.cid ∨ i ∈ bm25Rows.map SearchRow.cid := by
  have hkeys : ∀ rows : List (SearchRow ι),
      (rows.map metaOf).map Prod.fst = rows.map SearchRow.cid := by
    intro rows
    rw [List.map_map]
    rfl
  unfold fuseMeta
  split
  next => rw [mem_keys_putDefaults, mem_keys_putItems, hkeys, hkeys]; simp
  next => rw [mem_keys_putItems, mem_keys_putItems, hkeys, hkeys]; simp

theorem fuse_eq (hids : IsUnion allIds (vecRows.map SearchRow.hit) (bm25Rows.map SearchRow.hit))
    (topK : Nat) (fusionMode : Text) (alpha : Rat) :
    ∃ results debugInfo,
      fuse allIds vecRows bm25Rows topK fusionMode alpha = some (results, debugInfo) ∧
      results.map SearchResult.fileId = debugInfo.map FuseDebug.fileId ∧
      debugInfo.map FuseDebug.chunkId
        = sortedIds (fuseScores allIds vecRows bm25Rows fusionMode alpha) topK ∧
      ∀ d ∈ debugInfo, d.score
        = roundTo 6 (((fuseScores allIds vecRows bm25Rows fusionMode alpha).lookup d.chunkId).getD 0) := by
  have hall : ∀ i ∈ sortedIds (fuseScores allIds vecRows bm25Rows fusionMode alpha) topK,
      i ∈ (fuseMeta vecRows bm25Rows fusionMode).map Prod.fst := by
    intro i hi
    have hmem := ((isUnion_fuseScores hids fusionMode alpha).mem i).mp (best_subset hi)
    rw [map_hit_id, map_hit_id] at hmem
    exact (mem_keys_fuseMeta vecRows bm25Rows fusionMode i).mpr hmem
  obtain ⟨found, hfound, hkeys⟩ := mapM_lookup hall
  refine ⟨_, _, by rw [fuse, hfound]; rfl, ?_, ?_, ?_⟩
  · rw [List.map_map]
    refine (map_mapIdx (fun rank f => ?_) found).symm
    rfl
  · rw [← hkeys]
    refine map_mapIdx (fun rank f => ?_) found
    rfl
  · intro d hd
    obtain ⟨n, hn, rfl⟩ := List.mem_mapIdx.mp hd
    rfl

/-- The two fusions agree: every id has the same score, both return the best ids
in the order of the rounded scores, and the same ids in the same order when no
two rounded scores are equal. The two sets may be gone through differently. -/
theorem fuse_agrees (hvec : (vecRows.map SearchRow.cid).Nodup)
    (hbm : (bm25Rows.map SearchRow.cid).Nodup) {allIds' : List ι}
    (hids : IsUnion allIds (vecRows.map SearchRow.hit) (bm25Rows.map SearchRow.hit))
    (hids' : IsUnion allIds' (vecRows.map SearchRow.hit) (bm25Rows.map SearchRow.hit))
    (topK : Nat) (fusionMode : Text) (alpha : Rat) :
    let score := scoreOf fusionMode (vecRows.map SearchRow.hit) (bm25Rows.map SearchRow.hit) alpha
    let n := distinctIds (vecRows.map SearchRow.hit) (bm25Rows.map SearchRow.hit)
    let merged := (mergeOf fusionMode allIds (vecRows.map SearchRow.hit)
      (bm25Rows.map SearchRow.hit) topK alpha).map Retrieved.chunkId
    (∀ i ∈ allIds, (fuseScores allIds' vecRows bm25Rows fusionMode alpha).lookup i = some (score i)) ∧
      Ranking score n topK merged ∧
      ∃ results debugInfo,
        fuse allIds' vecRows bm25Rows topK fusionMode alpha = some (results, debugInfo) ∧
        results.map SearchResult.fileId = debugInfo.map FuseDebug.fileId ∧
        (∀ d ∈ debugInfo, d.score = roundTo 6 (score d.chunkId)) ∧
        Ranking score n topK (debugInfo.map FuseDebug.chunkId) ∧
        ((∀ i ∈ allIds, ∀ j ∈ allIds, roundTo 6 (score i) = roundTo 6 (score j) → i = j) →
          debugInfo.map FuseDebug.chunkId = merged) := by
  intro score n merged
  have hkeys := isUnion_fuseScores hids' fusionMode alpha
  have hscore := lookup_fuseScores hvec hbm hids' fusionMode alpha
  have hmerged := mergeOf_ids fusionMode allIds (vecRows.map SearchRow.hit)
    (bm25Rows.map SearchRow.hit) topK alpha
  obtain ⟨results, debugInfo, hfuse, hfiles, hfused, hscores⟩ := fuse_eq hids' topK fusionMode alpha
  rw [sortedIds_fuseScores hvec hbm hids' fusionMode alpha topK] at hfused
  refine ⟨fun i hi => ?_, ?_, results, debugInfo, hfuse, hfiles, fun d hd => ?_, ?_, fun hne => ?_⟩
  · obtain ⟨v, hv⟩ := exists_lookup ((hkeys.mem i).mpr ((hids.mem i).mp hi))
    have hi := hscore i
    rw [hv] at hi ⊢
    exact congrArg some hi
  · show Ranking score n topK merged
    rw [show merged = _ from hmerged]
    split
    next => exact ranking_best_rounded hids score topK
    next => exact ranking_best hids score topK
  · rw [hscores d hd, hscore]
  · rw [hfused]
    exact ranking_best hkeys score topK
  · rw [hfused, show merged = _ from hmerged, best, best]
    have hperm : allIds.Perm _ := hids.perm.trans hkeys.perm.symm
    split
    next => rw [← byScore_comp (fun _ _ => roundTo_mono 6) hperm hne]
    next =>
      rw [best, byScore_congr hperm fun i hi j hj heq => hne i hi j hj (congrArg (roundTo 6) heq)]

def rowOf (i : Nat) : SearchRow Nat :=
  { cid := i, content := [], fileId := 7, filename := "a.md".toList, raw := 1 / (i + 1) }

theorem fuse_agrees_three :
    ∃ results debugInfo,
      fuse [3, 2, 1] [rowOf 1, rowOf 2] [rowOf 2, rowOf 3] 2 "rrf".toList (1 / 2)
        = some (results, debugInfo) ∧
      debugInfo.map FuseDebug.chunkId
        = (mergeOf "rrf".toList [1, 2, 3] ([rowOf 1, rowOf 2].map SearchRow.hit)
            ([rowOf 2, rowOf 3].map SearchRow.hit) 2 (1 / 2)).map Retrieved.chunkId := by
  have hids : IsUnion [1, 2, 3] ([rowOf 1, rowOf 2].map SearchRow.hit)
      ([rowOf 2, rowOf 3].map SearchRow.hit) := ⟨by decide, by simp [rowOf, SearchRow.hit]; omega⟩
  have hids' : IsUnion [3, 2, 1] ([rowOf 1, rowOf 2].map SearchRow.hit)
      ([rowOf 2, rowOf 3].map SearchRow.hit) := ⟨by decide, by simp [rowOf, SearchRow.hit]; omega⟩
  obtain ⟨-, -, results, debugInfo, hfuse, -, -, -, hsame⟩ :=
    fuse_agrees (by decide) (by decide) hids hids' 2 "rrf".toList (1 / 2)
  exact ⟨results, debugInfo, hfuse, hsame (by decide +kernel)⟩

end Eidetic.Retrieval
