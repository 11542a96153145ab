import Eidetic.Lib.Best
import Eidetic.Lib.Dict
import Eidetic.Lib.Round
import Eidetic.Py.Text
import Mathlib.Data.List.Dedup

/-!
# Fusing two result lists

`_weighted_merge` and `_rrf_merge`. The ids of both lists are a set, which is gone
through in an order of its own; it is a parameter here.

The rows of a query are `Hit`s with distinct ids, and an order of the set is any
list that `IsUnion`. A merge computes a score for each id, sorts, and cuts: what
it returns are the best ones of the scores (`weightedMerge_ids`, `rrfMerge_ids`,
by the library's `Best`), in an order that depends on that of the set only among
equal scores. The columns, dictionaries in the source, are looked up by
`lookup_column`.
-/

namespace Eidetic.Retrieval

open Eidetic.Lib Eidetic.Py

/-- `_RRF_K`. -/
def rrfK : Nat := 60

/-- `1.0 / (_RRF_K + rank + 1)`. -/
def reciprocal (rank : Nat) : Rat := 1 / (rrfK + rank + 1)

/-- A row of a query: an id, where the content is from, the content, and the
similarity or the rank. -/
structure Hit (ι : Type*) where
  id : ι
  sourceId : ι
  content : Text
  raw : Rat
deriving DecidableEq

/-- An entry of a result. -/
structure Retrieved (ι : Type*) where
  chunkId : ι
  sourceId : Option ι
  content : Text
  denseScore : Rat
  sparseScore : Rat
  finalScore : Rat
  retrievalType : Text
deriving DecidableEq

variable {ι : Type*}

/-- The first rows of the vector query as they come. -/
def vectorOnly (vectorRows : List (Hit ι)) (topK : Nat) : List (Retrieved ι) :=
  (vectorRows.take topK).mapIdx fun rank r =>
    { chunkId := r.id
      sourceId := some r.sourceId
      content := r.content
      denseScore := roundTo 6 (reciprocal rank)
      sparseScore := 0
      finalScore := roundTo 6 (reciprocal rank)
      retrievalType := "vector".toList }

/-- What does not depend on the rank. -/
theorem map_mapIdx {α β γ : Type*} {f : Nat → α → β} {g : β → γ} {key : α → γ}
    (h : ∀ n a, g (f n a) = key a) (xs : List α) : (xs.mapIdx f).map g = xs.map key := by
  refine List.ext_getElem? fun n => ?_
  rw [List.getElem?_map, List.getElem?_mapIdx, List.getElem?_map, Option.map_map]
  exact congrArg (fun k => Option.map k xs[n]?) (funext (h n))

theorem vectorOnly_ids (vectorRows : List (Hit ι)) (topK : Nat) :
    (vectorOnly vectorRows topK).map Retrieved.chunkId = (vectorRows.take topK).map Hit.id := by
  refine map_mapIdx (fun rank r => ?_) _
  rfl

variable [DecidableEq ι]

/-- A dictionary over the rows of a query. -/
def column {ν : Type*} (value : Hit ι → ν) (rows : List (Hit ι)) : List (ι × ν) :=
  putItems [] (rows.map fun r => (r.id, value r))

/-- A dictionary over both queries, in which the first one goes first. -/
def columnOfBoth {ν : Type*} (value : Hit ι → ν) (vectorRows bm25Rows : List (Hit ι)) :
    List (ι × ν) :=
  bm25Rows.foldl (fun d r => putDefault d r.id (value r)) (column value vectorRows)

/-! ## `_weighted_merge` -/

/-- `max(scores.values()) if scores else 1.0`. -/
def maxScore (scores : List (ι × Rat)) : Rat :=
  match scores.map Prod.snd with
  | [] => 1
  | v :: vs => vs.foldl max v

/-- `scores.get(i, 0.0) / max_score if max_score > 0 else 0.0`. -/
def scaled (scores : List (ι × Rat)) (i : ι) : Rat :=
  if 0 < maxScore scores then (scores.lookup i).getD 0 / maxScore scores else 0

/-- `alpha * d + (1.0 - alpha) * s`. -/
def weightedScore (vectorRows bm25Rows : List (Hit ι)) (alpha : Rat) (i : ι) : Rat :=
  alpha * scaled (column Hit.raw vectorRows) i + (1 - alpha) * scaled (column Hit.raw bm25Rows) i

/-- What is made of an id. -/
def weightedEntry (vectorRows bm25Rows : List (Hit ι)) (alpha : Rat) (i : ι) : Retrieved ι where
  chunkId := i
  sourceId := (columnOfBoth Hit.sourceId vectorRows bm25Rows).lookup i
  content := ((columnOfBoth Hit.content vectorRows bm25Rows).lookup i).getD []
  denseScore := roundTo 6 (scaled (column Hit.raw vectorRows) i)
  sparseScore := roundTo 6 (scaled (column Hit.raw bm25Rows) i)
  finalScore := roundTo 6 (weightedScore vectorRows bm25Rows alpha i)
  retrievalType := "weighted".toList

/-- `_weighted_merge`, with the ids in the order of the set. -/
def weightedMerge (allIds : List ι) (vectorRows bm25Rows : List (Hit ι)) (topK : Nat) (alpha : Rat) :
    List (Retrieved ι) :=
  best Retrieved.finalScore topK (allIds.map (weightedEntry vectorRows bm25Rows alpha))

/-! ## `_rrf_merge` -/

/-- The reciprocal ranks of the rows. -/
def reciprocals (rows : List (Hit ι)) : List (ι × Rat) :=
  putItems [] (rows.mapIdx fun rank r => (r.id, reciprocal rank))

def rrfScore (vectorRows bm25Rows : List (Hit ι)) (i : ι) : Rat :=
  ((reciprocals vectorRows).lookup i).getD 0 + ((reciprocals bm25Rows).lookup i).getD 0

/-- `contents`: here the second query goes first. -/
def rrfContents (vectorRows bm25Rows : List (Hit ι)) : List (ι × Text) :=
  putItems (column Hit.content vectorRows) (bm25Rows.map fun r => (r.id, r.content))

/-- `"+".join(sorted(…))` of those that have a score. -/
def retrievalTypeOf (d s : Rat) : Text :=
  if s ≠ 0 then if d ≠ 0 then "bm25+vector".toList else "bm25".toList
  else if d ≠ 0 then "vector".toList else []

def rrfEntry (vectorRows bm25Rows : List (Hit ι)) (i : ι) : Retrieved ι :=
  let d := roundTo 6 (((reciprocals vectorRows).lookup i).getD 0)
  let s := roundTo 6 (((reciprocals bm25Rows).lookup i).getD 0)
  { chunkId := i
    sourceId := (columnOfBoth Hit.sourceId vectorRows bm25Rows).lookup i
    content := ((rrfContents vectorRows bm25Rows).lookup i).getD []
    denseScore := d
    sparseScore := s
    finalScore := roundTo 6 (d + s)
    retrievalType := retrievalTypeOf d s }

/-- `_rrf_merge`, with the ids in the order of the set. -/
def rrfMerge (allIds : List ι) (vectorRows bm25Rows : List (Hit ι)) (topK : Nat) :
    List (Retrieved ι) :=
  (best (rrfScore vectorRows bm25Rows) topK allIds).map (rrfEntry vectorRows bm25Rows)

/-! ## The branches -/

/-- A way to rank. -/
inductive Fusion
  | weighted (alpha : Rat)
  | rrf
  | vectorOnly
deriving DecidableEq

/-- The branch that is taken. -/
def fusionOf (fusionMode : Text) (alpha : Rat) (bm25Rows : List (Hit ι)) : Fusion :=
  if fusionMode = "weighted".toList then .weighted alpha
  else if bm25Rows.isEmpty then .vectorOnly
  else .rrf

/-- The result of a branch. -/
def Fusion.rank (fusion : Fusion) (allIds : List ι) (vectorRows bm25Rows : List (Hit ι))
    (topK : Nat) : List (Retrieved ι) :=
  match fusion with
  | .weighted alpha => weightedMerge allIds vectorRows bm25Rows topK alpha
  | .rrf => rrfMerge allIds vectorRows bm25Rows topK
  | .vectorOnly => Retrieval.vectorOnly vectorRows topK

/-! ## The ids -/

/-- An order of `set(dense) | set(sparse)`. -/
structure IsUnion (allIds : List ι) (vectorRows bm25Rows : List (Hit ι)) : Prop where
  nodup : allIds.Nodup
  mem : ∀ i, i ∈ allIds ↔ i ∈ vectorRows.map Hit.id ∨ i ∈ bm25Rows.map Hit.id

/-- The number of different ids. -/
def distinctIds (vectorRows bm25Rows : List (Hit ι)) : Nat :=
  ((vectorRows ++ bm25Rows).map Hit.id).dedup.length

theorem IsUnion.perm {allIds : List ι} {vectorRows bm25Rows : List (Hit ι)}
    (h : IsUnion allIds vectorRows bm25Rows) :
    allIds.Perm ((vectorRows ++ bm25Rows).map Hit.id).dedup := by
  rw [List.perm_ext_iff_of_nodup h.nodup (List.nodup_dedup _)]
  intro i
  rw [h.mem, List.mem_dedup, List.map_append, List.mem_append]

theorem IsUnion.length {allIds : List ι} {vectorRows bm25Rows : List (Hit ι)}
    (h : IsUnion allIds vectorRows bm25Rows) : allIds.length = distinctIds vectorRows bm25Rows :=
  h.perm.length_eq

theorem isUnion_dedup (vectorRows bm25Rows : List (Hit ι)) :
    IsUnion ((vectorRows ++ bm25Rows).map Hit.id).dedup vectorRows bm25Rows := by
  refine ⟨List.nodup_dedup _, fun i => ?_⟩
  rw [List.mem_dedup, List.map_append, List.mem_append]

/-- The set can be gone through with any of its ids first. -/
theorem exists_isUnion_cons {vectorRows bm25Rows : List (Hit ι)} {i : ι}
    (hi : i ∈ vectorRows.map Hit.id) :
    ∃ rest, IsUnion (i :: rest) vectorRows bm25Rows := by
  refine ⟨((vectorRows ++ bm25Rows).map Hit.id).dedup.erase i, ?_, fun j => ?_⟩
  · rw [List.nodup_cons]
    exact ⟨(List.nodup_dedup _).not_mem_erase, (List.nodup_dedup _).erase i⟩
  · rw [List.mem_cons, (List.nodup_dedup _).mem_erase_iff, List.mem_dedup, List.map_append,
      List.mem_append]
    by_cases hj : j = i
    · simp [hj, hi]
    · simp [hj]

/-! ## Columns -/

theorem column_eq {ν : Type*} {rows : List (Hit ι)} (h : (rows.map Hit.id).Nodup)
    (value : Hit ι → ν) : column value rows = rows.map fun r => (r.id, value r) := by
  refine putItems_of_new (d := []) ?_
  simpa [List.map_map, Function.comp_def] using h

theorem lookup_column {ν : Type*} {rows : List (Hit ι)} (h : (rows.map Hit.id).Nodup)
    (value : Hit ι → ν) {r : Hit ι} (hr : r ∈ rows) :
    (column value rows).lookup r.id = some (value r) := by
  rw [column_eq h]
  refine lookup_of_mem ?_ (List.mem_map.mpr ⟨r, hr, rfl⟩)
  simpa [List.map_map, Function.comp_def] using h

/-! ## What is returned -/

/-- The ids that are returned are the best ones. -/
theorem weightedMerge_ids (allIds : List ι) (vectorRows bm25Rows : List (Hit ι)) (topK : Nat)
    (alpha : Rat) : (weightedMerge allIds vectorRows bm25Rows topK alpha).map Retrieved.chunkId
      = best (fun i => roundTo 6 (weightedScore vectorRows bm25Rows alpha i)) topK allIds := by
  rw [weightedMerge, best_map, List.map_map]
  exact List.map_id _

theorem rrfMerge_ids (allIds : List ι) (vectorRows bm25Rows : List (Hit ι)) (topK : Nat) :
    (rrfMerge allIds vectorRows bm25Rows topK).map Retrieved.chunkId
      = best (rrfScore vectorRows bm25Rows) topK allIds := by
  rw [rrfMerge, List.map_map]
  exact List.map_id _

end Eidetic.Retrieval
