import Eidetic.Retrieval.Scaling

/-!
# Grounding

`_build_provenance` and `_compute_grounding`: how well an answer is grounded is
computed from the dense scores of the chunks that were retrieved. Scores that
belong to the chunks would give the same chunks the same grounding
(`computeGrounding_congr`); what the three ways to rank report is the part of the
greatest similarity or a reciprocal rank, and no similarity.

Grounding is computed from a list of entries, so it depends on their dense
scores alone, and on their order not at all (`grounding_of_perm`). What the ways
to rank report as the dense score is computed in `Retrieval.Fusion`; three
lemmas say of a row of the vector query what it is under each
(`exists_mem_weightedMerge`, `exists_mem_rrfMerge`, `exists_mem_vectorOnly`).
Two of these are never equal for the row of the greatest similarity, since 1/61
rounded is neither zero nor one (`exists_dense_ne`), so where the vector query
has a row the score depends on the fusion.
-/

namespace Eidetic.Retrieval

open Eidetic.Lib Eidetic.Py

/-- An entry of the provenance. -/
structure Provenance (ι : Type*) where
  chunkId : ι
  sourceId : Option ι
  denseScore : Rat
  sparseScore : Rat
  finalScore : Rat
  retrievalType : Text
deriving DecidableEq

structure GroundingSource (ι : Type*) where
  sourceId : Option ι
  denseScore : Rat
  retrievalType : Text
deriving DecidableEq

structure Grounding (ι : Type*) where
  level : Text
  score : Option Int
  sources : List (GroundingSource ι)
deriving DecidableEq

variable {ι : Type*}

def provenanceOf (hit : Retrieved ι) : Provenance ι where
  chunkId := hit.chunkId
  sourceId := hit.sourceId
  denseScore := hit.denseScore
  sparseScore := hit.sparseScore
  finalScore := hit.finalScore
  retrievalType := hit.retrievalType

/-- How the saliences of the memory change what was retrieved. -/
def rerank (salience : Option Rat) (hits : List (Retrieved ι)) : List (Retrieved ι) :=
  match salience with
  | none => hits
  | some salience =>
    byScore Retrieved.finalScore
      (hits.map fun c => { c with finalScore := c.finalScore * (1 + min salience 2 * (5 / 100)) })

/-- The level of a score. -/
def levelOf (score : Int) : Text :=
  if 70 ≤ score then "high".toList else if 40 ≤ score then "medium".toList else "low".toList

/-- The chunks that count. -/
def topOf (provenance : List (Provenance ι)) (topK : Nat) : List (Provenance ι) :=
  best Provenance.denseScore (max topK 1) provenance

/-- `round(100 * (0.7 * avg_dense + 0.3 * coverage))`. -/
def groundingScore (provenance : List (Provenance ι)) (topK : Nat) : Int :=
  let top := (topOf provenance topK).map Provenance.denseScore
  let avgDense := top.sum / top.length
  let coverage := min ((provenance.length : Rat) / (max topK 1 : Nat)) 1
  roundEven (100 * (7 / 10 * avgDense + 3 / 10 * coverage))

/-- `_compute_grounding`. -/
def computeGrounding (provenance : List (Provenance ι)) (topK : Nat) : Grounding ι :=
  if provenance.isEmpty then { level := "none".toList, score := none, sources := [] }
  else
    { level := levelOf (groundingScore provenance topK)
      score := some (groundingScore provenance topK)
      sources := (topOf provenance topK).map fun p =>
        { sourceId := p.sourceId, denseScore := roundTo 3 p.denseScore,
          retrievalType := p.retrievalType } }

/-! ## Dense scores -/

theorem groundingScore_congr {p q : List (Provenance ι)}
    (h : (p.map Provenance.denseScore).Perm (q.map Provenance.denseScore)) (topK : Nat) :
    groundingScore p topK = groundingScore q topK := by
  have hsort : byScore id (p.map Provenance.denseScore) = byScore id (q.map Provenance.denseScore) :=
    byScore_congr h fun _ _ _ _ heq => heq
  have htop : (topOf p topK).map Provenance.denseScore = (topOf q topK).map Provenance.denseScore := by
    show (best (fun e => id e.denseScore) _ p).map _ = (best (fun e => id e.denseScore) _ q).map _
    rw [← best_map Provenance.denseScore id, ← best_map Provenance.denseScore id, best, best, hsort]
  have hlength : p.length = q.length := by simpa using h.length_eq
  rw [groundingScore, groundingScore, htop, hlength]

/-- The same dense scores give the same grounding. -/
theorem computeGrounding_congr {p q : List (Provenance ι)}
    (h : (p.map Provenance.denseScore).Perm (q.map Provenance.denseScore)) (topK : Nat) :
    (computeGrounding p topK).score = (computeGrounding q topK).score ∧
      (computeGrounding p topK).level = (computeGrounding q topK).level := by
  have hscore := groundingScore_congr h topK
  have hempty : p.isEmpty = q.isEmpty := by
    have hlength : p.length = q.length := by simpa using h.length_eq
    rw [Bool.eq_iff_iff, List.isEmpty_iff_length_eq_zero, List.isEmpty_iff_length_eq_zero, hlength]
  unfold computeGrounding
  rw [hempty, hscore]
  split
  next => exact ⟨rfl, rfl⟩
  next => exact ⟨rfl, rfl⟩

theorem rerank_perm (salience : Option Rat) (hits : List (Retrieved ι)) :
    ((rerank salience hits).map fun c => (c.chunkId, c.denseScore)).Perm
      (hits.map fun c => (c.chunkId, c.denseScore)) := by
  unfold rerank
  split
  next => exact List.Perm.refl _
  next =>
    refine ((byScore_perm _ _).map _).trans ?_
    rw [List.map_map]
    exact List.Perm.refl _

/-- A row of the vector query has the reciprocal of its rank in the vector-only
ranking. -/
theorem exists_mem_vectorOnly {vectorRows : List (Hit ι)} {rank : Nat} {r : Hit ι}
    (hr : vectorRows[rank]? = some r) :
    ∃ c ∈ vectorOnly vectorRows vectorRows.length,
      c.chunkId = r.id ∧ c.denseScore = roundTo 6 (reciprocal rank) := by
  obtain ⟨hlt, rfl⟩ := List.getElem?_eq_some_iff.mp hr
  rw [vectorOnly, List.take_length]
  exact ⟨_, List.mem_mapIdx.mpr ⟨rank, hlt, rfl⟩, rfl, rfl⟩

variable [DecidableEq ι]

/-- The loop of `_build_provenance`, with the ids it has seen. -/
def provenanceFrom (seen : List ι) : List (Retrieved ι) → List (Provenance ι)
  | [] => []
  | hit :: hits =>
    if hit.chunkId ∈ seen then provenanceFrom seen hits
    else provenanceOf hit :: provenanceFrom (hit.chunkId :: seen) hits

/-- `_build_provenance`. -/
def buildProvenance (retrieved fileChunks : List (Retrieved ι)) : List (Provenance ι) :=
  provenanceFrom [] (retrieved ++ fileChunks)

theorem provenanceFrom_congr {seen seen' : List ι} (h : ∀ i, i ∈ seen ↔ i ∈ seen')
    (hits : List (Retrieved ι)) : provenanceFrom seen hits = provenanceFrom seen' hits := by
  induction hits generalizing seen seen' with
  | nil => rfl
  | cons hit hits ih =>
    by_cases hmem : hit.chunkId ∈ seen
    · rw [provenanceFrom, provenanceFrom, if_pos hmem, if_pos ((h _).mp hmem), ih h]
    · have hnext : ∀ i, i ∈ hit.chunkId :: seen ↔ i ∈ hit.chunkId :: seen' := fun i => by
        rw [List.mem_cons, List.mem_cons, h]
      rw [provenanceFrom, provenanceFrom, if_neg hmem, if_neg ((h _).not.mp hmem), ih hnext]

theorem provenanceFrom_append (seen : List ι) (hits more : List (Retrieved ι)) :
    provenanceFrom seen (hits ++ more)
      = provenanceFrom seen hits ++ provenanceFrom (hits.map Retrieved.chunkId ++ seen) more := by
  induction hits generalizing seen with
  | nil => rfl
  | cons hit hits ih =>
    rw [List.cons_append, List.map_cons, List.cons_append]
    by_cases hmem : hit.chunkId ∈ seen
    · rw [provenanceFrom, provenanceFrom, if_pos hmem, if_pos hmem, ih]
      congr 1
      refine provenanceFrom_congr (fun i => ?_) more
      rw [List.mem_cons, List.mem_append]
      exact (or_iff_right_of_imp fun heq => Or.inr (heq ▸ hmem)).symm
    · rw [provenanceFrom, provenanceFrom, if_neg hmem, if_neg hmem, ih, List.cons_append]
      congr 2
      refine provenanceFrom_congr (fun i => ?_) more
      simp only [List.mem_append, List.mem_cons]
      exact or_left_comm

/-- Of different chunks those are taken that were not seen before. -/
theorem provenanceFrom_of_nodup {hits : List (Retrieved ι)}
    (h : (hits.map Retrieved.chunkId).Nodup) (seen : List ι) :
    provenanceFrom seen hits = (hits.filter fun c => c.chunkId ∉ seen).map provenanceOf := by
  induction hits generalizing seen with
  | nil => rfl
  | cons hit hits ih =>
    obtain ⟨hnew, hrest⟩ := List.nodup_cons.mp (by rwa [List.map_cons] at h)
    by_cases hmem : hit.chunkId ∈ seen
    · rw [provenanceFrom, if_pos hmem, List.filter_cons_of_neg (by simpa using hmem), ih hrest]
    · rw [provenanceFrom, if_neg hmem, List.filter_cons_of_pos (by simpa using hmem), ih hrest,
        List.map_cons]
      congr 2
      refine List.filter_congr fun c hc => ?_
      have hne : c.chunkId ≠ hit.chunkId := fun heq => hnew (heq ▸ List.mem_map_of_mem hc)
      simp [hne]

/-- Chunks with the same scores, wherever they are in the turn, give the same
grounding. -/
theorem grounding_of_perm {hits hits' : List (Retrieved ι)}
    (hnodup : (hits.map Retrieved.chunkId).Nodup)
    (h : (hits.map fun c => (c.chunkId, c.denseScore)).Perm
      (hits'.map fun c => (c.chunkId, c.denseScore)))
    (before after : List (Retrieved ι)) (topK : Nat) :
    let provenance := buildProvenance (before ++ hits) after
    let provenance' := buildProvenance (before ++ hits') after
    (computeGrounding provenance topK).score = (computeGrounding provenance' topK).score ∧
      (computeGrounding provenance topK).level = (computeGrounding provenance' topK).level := by
  refine computeGrounding_congr ?_ topK
  have hids : (hits.map Retrieved.chunkId).Perm (hits'.map Retrieved.chunkId) := by
    simpa [List.map_map, Function.comp_def] using h.map Prod.fst
  -- what the provenance takes over of different chunks: those that it has not seen
  have hdense : ∀ (seen : List ι) (xs : List (Retrieved ι)), (xs.map Retrieved.chunkId).Nodup →
      (provenanceFrom seen xs).map Provenance.denseScore
        = ((xs.map fun c => (c.chunkId, c.denseScore)).filter fun e => e.1 ∉ seen).map Prod.snd := by
    intro seen xs hxs
    rw [provenanceFrom_of_nodup hxs, List.filter_map, List.map_map, List.map_map]
    rfl
  simp only [buildProvenance, provenanceFrom_append, List.map_append, List.append_nil]
  refine List.Perm.append (List.Perm.append_left _ ?_) (List.Perm.of_eq (congrArg _ ?_))
  · rw [hdense _ _ hnodup, hdense _ _ (hids.nodup_iff.mp hnodup)]
    exact (h.filter _).map Prod.snd
  · refine provenanceFrom_congr (fun i => ?_) after
    rw [List.mem_append, List.mem_append, hids.mem_iff]

/-! ## What is reported -/

/-- What one of the ways to rank makes of the hits. -/
def IsRanked (vectorRows bm25Rows : List (Hit ι)) (result : List (Retrieved ι)) : Prop :=
  ∃ (fusion : Fusion) (allIds : List ι) (topK : Nat), IsUnion allIds vectorRows bm25Rows ∧
    result = fusion.rank allIds vectorRows bm25Rows topK

/-- The dense score of a chunk is its similarity to the query, as far as it has an
embedding, whatever the way to rank; and the same chunks have the same grounding,
beside whatever else the turn has retrieved. -/
structure FusionIndependent (similarity : ι → Option Rat) (vectorRows bm25Rows : List (Hit ι)) :
    Prop where
  dense : ∀ result, IsRanked vectorRows bm25Rows result → ∀ c ∈ result,
    ∀ s, similarity c.chunkId = some s → c.denseScore = roundTo 6 s
  same : ∀ result result', IsRanked vectorRows bm25Rows result →
    IsRanked vectorRows bm25Rows result' → ∀ c ∈ result, ∀ c' ∈ result', c.chunkId = c'.chunkId →
      c.denseScore = c'.denseScore
  grounding : ∀ result result', IsRanked vectorRows bm25Rows result →
    IsRanked vectorRows bm25Rows result' →
    (result.map Retrieved.chunkId).Perm (result'.map Retrieved.chunkId) →
    ∀ (before after : List (Retrieved ι)) (salience salience' : Option Rat) (topK : Nat),
      let provenance := buildProvenance (before ++ rerank salience result) after
      let provenance' := buildProvenance (before ++ rerank salience' result') after
      (computeGrounding provenance topK).score = (computeGrounding provenance' topK).score ∧
        (computeGrounding provenance topK).level = (computeGrounding provenance' topK).level

variable {vectorRows bm25Rows : List (Hit ι)} {allIds : List ι} {topK : Nat}

/-- Scores that belong to the chunks give the same chunks the same grounding. -/
theorem grounding_of_dense {result result' : List (Retrieved ι)}
    (hnodup : (result.map Retrieved.chunkId).Nodup)
    (hids : (result.map Retrieved.chunkId).Perm (result'.map Retrieved.chunkId)) (dense : ι → Rat)
    (h : ∀ c ∈ result, c.denseScore = dense c.chunkId)
    (h' : ∀ c ∈ result', c.denseScore = dense c.chunkId)
    (before after : List (Retrieved ι)) (salience salience' : Option Rat) (topK : Nat) :
    let provenance := buildProvenance (before ++ rerank salience result) after
    let provenance' := buildProvenance (before ++ rerank salience' result') after
    (computeGrounding provenance topK).score = (computeGrounding provenance' topK).score ∧
      (computeGrounding provenance topK).level = (computeGrounding provenance' topK).level := by
  -- the score is a function of the chunk, so the ids determine the pairs
  have hpairs : ∀ xs : List (Retrieved ι), (∀ c ∈ xs, c.denseScore = dense c.chunkId) →
      (xs.map fun c => (c.chunkId, c.denseScore))
        = (xs.map Retrieved.chunkId).map fun i => (i, dense i) := by
    intro xs hxs
    rw [List.map_map]
    exact List.map_congr_left fun c hc => by rw [hxs c hc]; rfl
  have hperm := rerank_perm salience result
  have hreranked : ((rerank salience result).map Retrieved.chunkId).Nodup := by
    have hmap := hperm.map Prod.fst
    rw [List.map_map, List.map_map] at hmap
    exact hmap.nodup_iff.mpr hnodup
  refine grounding_of_perm hreranked ?_ before after topK
  refine hperm.trans (List.Perm.trans ?_ (rerank_perm salience' result').symm)
  rw [hpairs result h, hpairs result' h']
  exact hids.map _

/-- A row of the vector query has the part of its similarity under weighted fusion. -/
theorem exists_mem_weightedMerge (hvec : (vectorRows.map Hit.id).Nodup)
    (hids : IsUnion allIds vectorRows bm25Rows) {r : Hit ι} (hr : r ∈ vectorRows) (alpha : Rat) :
    ∃ c ∈ weightedMerge allIds vectorRows bm25Rows allIds.length alpha,
      c.chunkId = r.id ∧ c.denseScore = roundTo 6 (share vectorRows r.id) := by
  have hid : r.id ∈ allIds := (hids.mem r.id).mpr (Or.inl (List.mem_map_of_mem hr))
  refine ⟨weightedEntry vectorRows bm25Rows alpha r.id, ?_, rfl, ?_⟩
  · refine (best_of_length_le ?_).mem_iff.mpr (List.mem_map_of_mem hid)
    rw [List.length_map]
  · rw [weightedEntry, scaled_eq_share hvec]

theorem reciprocal_le (rank : Nat) : reciprocal rank ≤ 1 / 61 := by
  unfold reciprocal rrfK
  refine one_div_le_one_div_of_le (by norm_num) ?_
  have hnonneg : (0 : Rat) ≤ rank := Nat.cast_nonneg rank
  push_cast
  linarith

/-- The reciprocal of a rank is no similarity: the first one is not zero, and
none is one. -/
theorem roundTo_first : roundTo 6 (reciprocal 0) = 16393 / 1000000 := by decide +kernel

theorem roundTo_reciprocal_ne_one (rank : Nat) : roundTo 6 (reciprocal rank) ≠ 1 := by
  have hle := roundTo_mono 6 (reciprocal_le rank)
  have hfirst : roundTo 6 (1 / 61) = 16393 / 1000000 := by decide +kernel
  rw [hfirst] at hle
  intro heq
  rw [heq] at hle
  norm_num at hle

/-- Weighted fusion and the vector-only ranking differ as soon as there is a hit. -/
theorem exists_dense_ne (hvec : (vectorRows.map Hit.id).Nodup)
    (hids : IsUnion allIds vectorRows bm25Rows) (hne : vectorRows ≠ []) :
    ∃ c ∈ weightedMerge allIds vectorRows bm25Rows allIds.length 1,
      ∃ c' ∈ vectorOnly vectorRows vectorRows.length,
        c.chunkId = c'.chunkId ∧ c.denseScore ≠ c'.denseScore := by
  by_cases hpos : ∃ r ∈ vectorRows, 0 < r.raw
  · -- the closest hit has all of the greatest similarity
    obtain ⟨r, hr, hraw⟩ := exists_greatest (greatest_pos hpos)
    obtain ⟨rank, hrank⟩ := List.mem_iff_getElem?.mp hr
    obtain ⟨c, hc, hid, hdense⟩ := exists_mem_weightedMerge hvec hids hr 1
    obtain ⟨c', hc', hid', hdense'⟩ := exists_mem_vectorOnly hrank
    refine ⟨c, hc, c', hc', hid.trans hid'.symm, ?_⟩
    rw [hdense, hdense', share_of_mem hvec hr, hraw, div_self (ne_of_gt (greatest_pos hpos)),
      roundTo_one]
    exact (roundTo_reciprocal_ne_one rank).symm
  · -- no hit has anything of it
    push Not at hpos
    obtain ⟨r, rest, rfl⟩ := List.exists_cons_of_ne_nil hne
    obtain ⟨c, hc, hid, hdense⟩ := exists_mem_weightedMerge hvec hids (List.mem_cons_self ..) 1
    have hfirst : (r :: rest)[0]? = some r := rfl
    obtain ⟨c', hc', hid', hdense'⟩ := exists_mem_vectorOnly hfirst
    refine ⟨c, hc, c', hc', hid.trans hid'.symm, ?_⟩
    rw [hdense, hdense', share, greatest_eq_zero hpos, div_zero, roundTo_zero, roundTo_first]
    norm_num

/-- Without a hit of the vector query every dense score is zero. -/
theorem dense_eq_zero {result : List (Retrieved ι)} (h : IsRanked [] bm25Rows result) :
    ∀ c ∈ result, c.denseScore = 0 := by
  obtain ⟨fusion, allIds, topK, -, rfl⟩ := h
  intro c hc
  cases fusion with
  | weighted alpha =>
    obtain ⟨i, -, rfl⟩ := List.mem_map.mp (best_subset hc)
    show roundTo 6 (scaled (column Hit.raw []) i) = 0
    have hzero : scaled (column Hit.raw []) i = 0 := by
      rw [scaled_eq_share (by simp), share, rawOf_eq_zero (by simp), zero_div]
    rw [hzero, roundTo_zero]
  | rrf =>
    obtain ⟨i, -, rfl⟩ := List.mem_map.mp hc
    exact roundTo_zero 6
  | vectorOnly =>
    rw [Fusion.rank, vectorOnly, List.take_nil] at hc
    exact absurd hc List.not_mem_nil

/-- The ids of a result are different ids of the hits. -/
theorem ids_of_ranked {result : List (Retrieved ι)} (hvec : (vectorRows.map Hit.id).Nodup)
    (h : IsRanked vectorRows bm25Rows result) :
    (result.map Retrieved.chunkId).Nodup ∧
      ∀ i ∈ result.map Retrieved.chunkId, i ∈ vectorRows.map Hit.id ∨ i ∈ bm25Rows.map Hit.id := by
  obtain ⟨fusion, allIds, topK, hids, rfl⟩ := h
  cases fusion with
  | weighted alpha =>
    rw [Fusion.rank, weightedMerge_ids]
    exact ⟨nodup_best hids.nodup, fun i hi => (hids.mem i).mp (best_subset hi)⟩
  | rrf =>
    rw [Fusion.rank, rrfMerge_ids]
    exact ⟨nodup_best hids.nodup, fun i hi => (hids.mem i).mp (best_subset hi)⟩
  | vectorOnly =>
    have hsub := (List.take_sublist topK vectorRows).map Hit.id
    rw [Fusion.rank, vectorOnly_ids]
    exact ⟨hvec.sublist hsub, fun i hi => Or.inl (hsub.subset hi)⟩

/-- Every hit is reported by reciprocal rank fusion. -/
theorem exists_mem_rrfMerge (vectorRows bm25Rows : List (Hit ι)) {i : ι} (hi : i ∈ allIds) :
    ∃ c ∈ rrfMerge allIds vectorRows bm25Rows allIds.length, c.chunkId = i :=
  ⟨_, List.mem_map_of_mem ((best_of_length_le le_rfl).mem_iff.mpr hi), rfl⟩

/-- The dense scores, and with them the grounding, do not depend on the fusion
exactly when there is no hit of the vector query, and no hit of the text query
has a similarity that shows. -/
theorem fusionIndependent_iff (similarity : ι → Option Rat)
    (hvec : (vectorRows.map Hit.id).Nodup) :
    FusionIndependent similarity vectorRows bm25Rows ↔
      vectorRows = [] ∧
        ∀ r ∈ bm25Rows, ∀ s, similarity r.id = some s → roundTo 6 s = 0 := by
  -- any order of the ids will do, so one of them serves for both directions
  have hids := isUnion_dedup vectorRows bm25Rows
  constructor
  · intro h
    have hnone : vectorRows = [] := by
      by_contra hne
      obtain ⟨c, hc, c', hc', hid, hdense⟩ := exists_dense_ne hvec hids hne
      exact hdense (h.same _ _ ⟨.weighted 1, _, _, hids, rfl⟩ ⟨.vectorOnly, _, _, hids, rfl⟩
        c hc c' hc' hid)
    refine ⟨hnone, fun r hr s hs => ?_⟩
    -- a text hit's similarity would show in the score, but rrf scores it zero
    have hr := (hids.mem r.id).mpr (Or.inr (List.mem_map_of_mem hr))
    obtain ⟨c, hc, hid⟩ := exists_mem_rrfMerge vectorRows bm25Rows hr
    have hdense := h.dense _ ⟨.rrf, _, _, hids, rfl⟩ c hc s (hid ▸ hs)
    subst hnone
    rw [← hdense]
    exact dense_eq_zero ⟨.rrf, _, _, hids, rfl⟩ c hc
  · intro ⟨hnone, hbm⟩
    subst hnone
    -- without vector hits every fusion scores zero, and there is nothing to differ in
    have hzero : ∀ result, IsRanked [] bm25Rows result → ∀ c ∈ result, c.denseScore = 0 :=
      fun _ hresult => dense_eq_zero hresult
    refine ⟨fun result hresult c hc s hs => ?_, fun result result' h h' c hc c' hc' _ => ?_,
      fun result result' h h' hperm => ?_⟩
    · have hid := (ids_of_ranked hvec hresult).2 c.chunkId (List.mem_map_of_mem hc)
      obtain ⟨r, hr, hr'⟩ := List.mem_map.mp (hid.resolve_left List.not_mem_nil)
      rw [hzero result hresult c hc, hbm r hr s (hr' ▸ hs)]
    · rw [hzero result h c hc, hzero result' h' c' hc']
    · exact grounding_of_dense (ids_of_ranked hvec h).1 hperm (fun _ => 0) (hzero result h) (hzero result' h')

/-- A chunk that only the text query found, with an embedding that has nothing of
the question. -/
theorem fusionIndependent_text :
    FusionIndependent (fun _ => some 0) [] [hitOf 1 (1 / 10)] :=
  (fusionIndependent_iff (fun _ => some 0) (by decide)).mpr
    ⟨rfl, fun _ _ s hs => by rw [← Option.some.inj hs]; exact roundTo_zero 6⟩

/-- A chunk of similarity 0.8 that both queries found: it is reported with 1 or
with 0.016393, and the grounding is high or low. -/
theorem grounding_depends :
    ((weightedMerge [1] [hitOf 1 (4 / 5)] [hitOf 1 (1 / 10)] 5 (1 / 2)).map Retrieved.denseScore = [1] ∧
      (rrfMerge [1] [hitOf 1 (4 / 5)] [hitOf 1 (1 / 10)] 5).map Retrieved.denseScore
        = [16393 / 1000000]) ∧
      ((computeGrounding (buildProvenance
          (weightedMerge [1] [hitOf 1 (4 / 5)] [hitOf 1 (1 / 10)] 5 (1 / 2)) []) 5).score = some 76 ∧
        (computeGrounding (buildProvenance
          (rrfMerge [1] [hitOf 1 (4 / 5)] [hitOf 1 (1 / 10)] 5) []) 5).score = some 7) ∧
      ¬ FusionIndependent (fun _ => some (4 / 5)) [hitOf 1 (4 / 5)] [hitOf 1 (1 / 10)] := by
  refine ⟨⟨by decide +kernel, by decide +kernel⟩, ⟨by decide +kernel, by decide +kernel⟩, fun h => ?_⟩
  have hids := isUnion_dedup [hitOf 1 (4 / 5)] [hitOf 1 (1 / 10)]
  obtain ⟨c, hc, c', hc', hid, hdense⟩ := exists_dense_ne (by decide) hids (by simp)
  exact hdense (h.same _ _ ⟨.weighted 1, _, _, hids, rfl⟩ ⟨.vectorOnly, _, _, hids, rfl⟩ c hc c' hc' hid)

end Eidetic.Retrieval
