import Eidetic.Lib.OrderBy
import Eidetic.Retrieval.Fusion
import Mathlib.Order.WithBot

/-!
# Rows that wait for an embedding

A row without an embedding has no distance to a question. It comes last in a
query that is sorted by the distance, and `float` of its similarity raises. The
two queries with a limit notice such a row when the limit is not reached without
it, and the one without a limit always does.

A query is a relation between the rows and what may be returned, as the order of
equal distances is not fixed; the limit cuts such an order. Rows without an
embedding have the distance `⊤`, so they are the last ones, and within the limit
the answers are those of the rows that have one, exactly when these reach it
(`isAnswer_embedded_iff`). What the three functions do with an answer is the
same: one row whose similarity is missing and the whole call fails, which their
callers take for no hits (`empty_of_waiting`).
-/

namespace Eidetic.Retrieval

open Eidetic.Lib Eidetic.Py

/-- A row of `message_embeddings`. -/
structure MessageEmbedding (ι ε : Type*) where
  id : ι
  messageId : ι
  conversationId : ι
  contentSnippet : Text
  embedding : Option ε
  createdAt : Rat
deriving DecidableEq

/-- What a row of `conversations` has for the queries. -/
structure ConversationRow (ι : Type*) where
  id : ι
  userId : Nat
  isArchived : Bool
deriving DecidableEq

variable {ι ε : Type*}

/-! ## The queries -/

section
-- `embedding <=> :query_embedding`
variable (distance : ε → Rat)

/-- The distance as the query sorts by it: `NULL` comes last. -/
def distanceOf (r : MessageEmbedding ι ε) : WithTop Rat :=
  match r.embedding with
  | some e => (distance e : WithTop Rat)
  | none => ⊤

/-- `float(r.sim)`, which raises on `None`. -/
def similarityOf (r : MessageEmbedding ι ε) : Option Rat :=
  r.embedding.map fun e => 1 - distance e

/-- `.order_by(cosine_distance).limit(k)`. -/
def IsAnswer (rows : List (MessageEmbedding ι ε)) (k : Nat) (answer : List (MessageEmbedding ι ε)) :
    Prop :=
  ∃ order, Orders (distanceOf distance) rows order ∧ answer = order.take k

/-- The rows with their similarities; `none` when one of them raises. -/
def withSimilarity (answer : List (MessageEmbedding ι ε)) :
    Option (List (MessageEmbedding ι ε × Rat)) :=
  answer.mapM fun r => (similarityOf distance r).map fun sim => (r, sim)

/-- `vector_rows` of `retrieve`. -/
def vectorRowsOf (answer : List (MessageEmbedding ι ε)) : Option (List (Hit ι)) :=
  (withSimilarity distance answer).map fun found =>
    found.map fun e =>
      { id := e.1.id, sourceId := e.1.conversationId, content := e.1.contentSnippet, raw := e.2 }

/-- `_GLOBAL_SIM_FLOOR`. -/
def globalSimFloor : Rat := 30 / 100

/-- `_RECENCY_HALF_LIFE_DAYS`. -/
def recencyHalfLifeDays : Rat := 14

-- `0.5 ** x`
variable (half : Rat → Rat)

/-- `_recency_weight`. -/
def recencyWeight (createdAt : Option Rat) (now : Rat) : Rat :=
  match createdAt with
  | none => 1
  | some createdAt => half (max 0 ((now - createdAt) / 86400) / recencyHalfLifeDays)

/-- `vector_rows` of `retrieve_global`. -/
def globalRowsOf (now : Rat) (answer : List (MessageEmbedding ι ε)) : Option (List (Hit ι)) :=
  (withSimilarity distance answer).map fun found =>
    byScore Hit.raw ((found.filter fun e => ¬ e.2 < globalSimFloor).map fun e =>
      { id := e.1.id, sourceId := e.1.conversationId, content := e.1.contentSnippet,
        raw := e.2 * recencyWeight half (some e.1.createdAt) now })

variable [DecidableEq ι]

/-- `_where` of `retrieve`. -/
def retrieveWhere (conversationId : ι) (excludeMessageIds : List ι) (r : MessageEmbedding ι ε) :
    Bool :=
  r.conversationId = conversationId ∧ (excludeMessageIds = [] ∨ r.messageId ∉ excludeMessageIds)

/-- The join and the conditions of `retrieve_global`. -/
def globalWhere (conversations : List (ConversationRow ι)) (userId : Nat) (excludeConvId : ι)
    (r : MessageEmbedding ι ε) : Bool :=
  (∃ c ∈ conversations, c.id = r.conversationId ∧ c.userId = userId ∧ c.isArchived = false) ∧
    r.conversationId ≠ excludeConvId

/-- The conditions of `get_relevance_scores`. -/
def relevanceWhere (conversationId : ι) (messageIds : List ι) (r : MessageEmbedding ι ε) : Bool :=
  r.conversationId = conversationId ∧ (messageIds = [] ∨ r.messageId ∈ messageIds)

/-- The scores under the ids of the messages. -/
def relevanceOf (answer : List (MessageEmbedding ι ε)) : Option (List (ι × Rat)) :=
  (withSimilarity distance answer).map fun found =>
    putItems [] (found.map fun e => (e.1.messageId, e.2))

/-- `retrieve`, from the answers of the two queries: what raises is caught, and
the result is empty. -/
def retrieve (answer : List (MessageEmbedding ι ε)) (bm25Rows : List (Hit ι)) (allIds : List ι)
    (topK : Nat) (fusionMode : Text) (alpha : Rat) : List (Retrieved ι) :=
  match vectorRowsOf distance answer with
  | none => []
  | some vectorRows => (fusionOf fusionMode alpha bm25Rows).rank allIds vectorRows bm25Rows topK

/-- `retrieve_global`. -/
def retrieveGlobal (now : Rat) (answer : List (MessageEmbedding ι ε)) (bm25Rows : List (Hit ι))
    (allIds : List ι) (topK : Nat) (fusionMode : Text) (alpha : Rat) : List (Retrieved ι) :=
  match globalRowsOf distance half now answer with
  | none => []
  | some vectorRows => (fusionOf fusionMode alpha bm25Rows).rank allIds vectorRows bm25Rows topK

/-- `get_relevance_scores`. -/
def getRelevanceScores (answer : List (MessageEmbedding ι ε)) : List (ι × Rat) :=
  (relevanceOf distance answer).getD []

end

/-! ## Rows without an embedding -/

/-- The rows that do not wait. -/
def embedded (rows : List (MessageEmbedding ι ε)) : List (MessageEmbedding ι ε) :=
  rows.filter fun r => r.embedding.isSome

variable {distance : ε → Rat} {rows : List (MessageEmbedding ι ε)} {k : Nat}

theorem distanceOf_eq_top {r : MessageEmbedding ι ε} : distanceOf distance r = ⊤ ↔ r.embedding = none := by
  unfold distanceOf
  split
  next e he => simp [he]
  next he => simp [he]

theorem filter_ne_top (rows : List (MessageEmbedding ι ε)) :
    (rows.filter fun r => distanceOf distance r ≠ ⊤) = embedded rows := by
  refine List.filter_congr fun r _ => ?_
  rw [Bool.eq_iff_iff, decide_eq_true_eq, Option.isSome_iff_ne_none, ne_eq, ne_eq, distanceOf_eq_top]

theorem withSimilarity_eq_none {answer : List (MessageEmbedding ι ε)} :
    withSimilarity distance answer = none ↔ ∃ r ∈ answer, r.embedding = none := by
  induction answer with
  | nil => simp [withSimilarity]
  | cons r answer ih =>
    rw [withSimilarity, List.mapM_cons, List.exists_mem_cons_iff, ← ih, similarityOf]
    cases he : r.embedding with
    | none => simp
    | some e =>
      cases ha : answer.mapM fun r => (similarityOf distance r).map fun sim => (r, sim) with
      | none => simp [withSimilarity, ha]
      | some found => simp [withSimilarity, ha]

/-- What a query gives is what it gives without the rows that wait, and it does
not raise. -/
structure Undisturbed {γ : Type*} (outcome : List (MessageEmbedding ι ε) → Option γ → Prop)
    (rows : List (MessageEmbedding ι ε)) : Prop where
  same : ∀ result, outcome rows result ↔ outcome (embedded rows) result
  succeeds : ¬ outcome rows none

/-- What a query with an order and a limit gives, in one of its orders. -/
def limitOutcome {γ : Type*} (distance : ε → Rat) (p : MessageEmbedding ι ε → Bool) (k : Nat)
    (use : List (MessageEmbedding ι ε) → Option γ) (rows : List (MessageEmbedding ι ε))
    (result : Option γ) : Prop :=
  ∃ answer, IsAnswer distance (rows.filter p) k answer ∧ result = use answer

/-- What a query without them gives: the rows come in any order. -/
def allOutcome {γ : Type*} (p : MessageEmbedding ι ε → Bool)
    (use : List (MessageEmbedding ι ε) → Option γ) (rows : List (MessageEmbedding ι ε))
    (result : Option γ) : Prop :=
  ∃ answer, answer.Perm (rows.filter p) ∧ result = use answer

theorem embedded_filter (p : MessageEmbedding ι ε → Bool) (rows : List (MessageEmbedding ι ε)) :
    (embedded rows).filter p = embedded (rows.filter p) := by
  rw [embedded, embedded, List.filter_filter, List.filter_filter]
  exact List.filter_congr fun r _ => Bool.and_comm ..

theorem embedded_eq_self : embedded rows = rows ↔ ∀ r ∈ rows, r.embedding.isSome :=
  List.filter_eq_self

theorem mem_embedded {r : MessageEmbedding ι ε} : r ∈ embedded rows ↔ r ∈ rows ∧ r.embedding.isSome :=
  List.mem_filter

/-- Within the limit the answers are those without the rows that wait. -/
theorem isAnswer_embedded_iff (h : (∀ r ∈ rows, r.embedding.isSome) ∨ k ≤ (embedded rows).length)
    (answer : List (MessageEmbedding ι ε)) :
    IsAnswer distance rows k answer ↔ IsAnswer distance (embedded rows) k answer := by
  rcases h with hall | hk
  · rw [embedded_eq_self.mpr hall]
  · have hlength : k ≤ (rows.filter fun r => distanceOf distance r ≠ ⊤).length := by
      rw [filter_ne_top]
      exact hk
    have hiff := take_orders_iff hlength answer
    rw [filter_ne_top] at hiff
    exact hiff

/-- The answers without the rows that wait raise nothing. -/
theorem embedded_of_isAnswer {answer : List (MessageEmbedding ι ε)}
    (h : IsAnswer distance (embedded rows) k answer) : ∀ r ∈ answer, r.embedding ≠ none := by
  obtain ⟨order, horder, rfl⟩ := h
  intro r hr
  have hmem := horder.perm.subset (List.mem_of_mem_take hr)
  exact Option.isSome_iff_ne_none.mp (mem_embedded.mp hmem).2

/-- A query with a limit is undisturbed exactly when no row that it selects
waits, or those that do not wait reach the limit. -/
theorem limitOutcome_undisturbed_iff {γ : Type*} {use : List (MessageEmbedding ι ε) → Option γ}
    (huse : ∀ answer, use answer = none ↔ ∃ r ∈ answer, r.embedding = none)
    (p : MessageEmbedding ι ε → Bool) :
    Undisturbed (limitOutcome distance p k use) rows ↔
      (∀ r ∈ rows, p r → r.embedding.isSome) ∨ k ≤ ((embedded rows).filter p).length := by
  have hall : (∀ r ∈ rows, p r → r.embedding.isSome) ↔ ∀ r ∈ rows.filter p, r.embedding.isSome := by
    simp only [List.mem_filter, and_imp]
  rw [hall, embedded_filter]
  constructor
  · intro h
    by_contra hnot
    push Not at hnot
    obtain ⟨⟨r, hr, hwaits⟩, hk⟩ := hnot
    -- then each answer has a row that waits, and there is an answer
    obtain ⟨order, horder⟩ := exists_orders (distanceOf distance) (rows.filter p)
    have htop := horder.exists_top_mem_take (k := k) (by rw [filter_ne_top]; exact hk)
      ⟨r, hr, distanceOf_eq_top.mpr (by simpa using hwaits)⟩
    obtain ⟨r', hr', htop'⟩ := htop
    refine h.succeeds ⟨order.take k, ⟨order, horder, rfl⟩, ((huse _).mpr ?_).symm⟩
    exact ⟨r', hr', distanceOf_eq_top.mp htop'⟩
  · intro h
    have hiff : ∀ answer, IsAnswer distance (rows.filter p) k answer ↔
        IsAnswer distance (embedded (rows.filter p)) k answer := isAnswer_embedded_iff h
    constructor
    · intro result
      simp only [limitOutcome, hiff, embedded_filter]
    · intro ⟨answer, hanswer, hnone⟩
      obtain ⟨r, hr, hwaits⟩ := (huse answer).mp hnone.symm
      exact embedded_of_isAnswer ((hiff answer).mp hanswer) r hr hwaits

/-- A query without a limit is undisturbed exactly when no row that it selects waits. -/
theorem allOutcome_undisturbed_iff {γ : Type*} {use : List (MessageEmbedding ι ε) → Option γ}
    (huse : ∀ answer, use answer = none ↔ ∃ r ∈ answer, r.embedding = none)
    (p : MessageEmbedding ι ε → Bool) :
    Undisturbed (allOutcome p use) rows ↔ ∀ r ∈ rows, p r → r.embedding.isSome := by
  constructor
  · intro h r hr hp
    by_contra hwaits
    refine h.succeeds ⟨rows.filter p, List.Perm.refl _, ((huse _).mpr ⟨r, ?_, ?_⟩).symm⟩
    · exact List.mem_filter.mpr ⟨hr, hp⟩
    · simpa using hwaits
  · intro h
    have hselected : ∀ r ∈ rows.filter p, r.embedding.isSome := fun r hr =>
      h r (List.mem_filter.mp hr).1 (List.mem_filter.mp hr).2
    constructor
    · intro result
      rw [allOutcome, allOutcome, embedded_filter, embedded_eq_self.mpr hselected]
    · intro ⟨answer, hperm, hnone⟩
      obtain ⟨r, hr, hwaits⟩ := (huse answer).mp hnone.symm
      have hsome := hselected r (hperm.subset hr)
      rw [hwaits] at hsome
      exact absurd hsome (by simp)

/-! ## The three functions -/

theorem vectorRowsOf_eq_none (answer : List (MessageEmbedding ι ε)) :
    vectorRowsOf distance answer = none ↔ ∃ r ∈ answer, r.embedding = none := by
  rw [vectorRowsOf, Option.map_eq_none_iff, withSimilarity_eq_none]

theorem globalRowsOf_eq_none (half : Rat → Rat) (now : Rat) (answer : List (MessageEmbedding ι ε)) :
    globalRowsOf distance half now answer = none ↔ ∃ r ∈ answer, r.embedding = none := by
  rw [globalRowsOf, Option.map_eq_none_iff, withSimilarity_eq_none]

theorem relevanceOf_eq_none [DecidableEq ι] (answer : List (MessageEmbedding ι ε)) :
    relevanceOf distance answer = none ↔ ∃ r ∈ answer, r.embedding = none := by
  rw [relevanceOf, Option.map_eq_none_iff, withSimilarity_eq_none]

/-- A row that waits takes the other hits with it: the three functions return nothing. -/
theorem empty_of_waiting [DecidableEq ι] (half : Rat → Rat) (now : Rat)
    {answer : List (MessageEmbedding ι ε)} (h : ∃ r ∈ answer, r.embedding = none)
    (bm25Rows : List (Hit ι)) (allIds : List ι) (topK : Nat) (fusionMode : Text) (alpha : Rat) :
    retrieve distance answer bm25Rows allIds topK fusionMode alpha = [] ∧
      retrieveGlobal distance half now answer bm25Rows allIds topK fusionMode alpha = [] ∧
      getRelevanceScores distance answer = [] := by
  refine ⟨?_, ?_, ?_⟩
  · rw [retrieve, (vectorRowsOf_eq_none answer).mpr h]
  · rw [retrieveGlobal, (globalRowsOf_eq_none half now answer).mpr h]
  · rw [getRelevanceScores, (relevanceOf_eq_none answer).mpr h, Option.getD_none]

/-- When the rows that wait make no difference to the three functions. -/
theorem queries_undisturbed_iff [DecidableEq ι] (distance : ε → Rat) (half : Rat → Rat) (now : Rat)
    (conversations : List (ConversationRow ι)) (userId kDense : Nat)
    (conversationId excludeConvId : ι) (excludeMessageIds messageIds : List ι)
    (rows : List (MessageEmbedding ι ε)) :
    (Undisturbed (limitOutcome distance (retrieveWhere conversationId excludeMessageIds) kDense
          (vectorRowsOf distance)) rows ↔
        (∀ r ∈ rows, retrieveWhere conversationId excludeMessageIds r → r.embedding.isSome) ∨
          kDense ≤ ((embedded rows).filter (retrieveWhere conversationId excludeMessageIds)).length) ∧
      (Undisturbed (limitOutcome distance (globalWhere conversations userId excludeConvId) kDense
          (globalRowsOf distance half now)) rows ↔
        (∀ r ∈ rows, globalWhere conversations userId excludeConvId r → r.embedding.isSome) ∨
          kDense ≤
            ((embedded rows).filter (globalWhere conversations userId excludeConvId)).length) ∧
      (Undisturbed (allOutcome (relevanceWhere conversationId messageIds) (relevanceOf distance)) rows ↔
        ∀ r ∈ rows, relevanceWhere conversationId messageIds r → r.embedding.isSome) :=
  ⟨limitOutcome_undisturbed_iff vectorRowsOf_eq_none _,
    limitOutcome_undisturbed_iff (globalRowsOf_eq_none half now) _,
    allOutcome_undisturbed_iff relevanceOf_eq_none _⟩

/-- The rows of the conversation 1, the second of which waits. -/
def pendingRows : List (MessageEmbedding Nat Rat) :=
  [⟨11, 21, 1, [], some (1 / 10), 0⟩, ⟨12, 22, 1, [], none, 0⟩]

/-- Each of the three functions fails for the row that waits, and `retrieve` loses
the hits of the text query too. -/
theorem pendingRows_disturb :
    ¬ Undisturbed (limitOutcome id (retrieveWhere 1 []) 20 (vectorRowsOf id)) pendingRows ∧
      ¬ Undisturbed (limitOutcome id (globalWhere [⟨1, 7, false⟩] 7 2) 20
          (globalRowsOf id (fun _ => 1) 0)) pendingRows ∧
      ¬ Undisturbed (allOutcome (relevanceWhere 1 []) (relevanceOf id)) pendingRows ∧
      ∀ answer, IsAnswer id (pendingRows.filter (retrieveWhere 1 [])) 20 answer →
        retrieve id answer [⟨11, 1, [], 1⟩] [11] 3 "rrf".toList (1 / 2) = [] := by
  refine ⟨?_, ?_, ?_, fun answer ⟨order, horder, hanswer⟩ => ?_⟩
  · rw [limitOutcome_undisturbed_iff vectorRowsOf_eq_none]
    decide
  · rw [limitOutcome_undisturbed_iff (globalRowsOf_eq_none _ _)]
    decide
  · rw [allOutcome_undisturbed_iff relevanceOf_eq_none]
    decide
  · have htop := horder.exists_top_mem_take (k := 20) (by decide)
      ⟨⟨12, 22, 1, [], none, 0⟩, by decide, rfl⟩
    rw [← hanswer] at htop
    obtain ⟨r, hr, hwaits⟩ := htop
    exact (empty_of_waiting id 0 ⟨r, hr, distanceOf_eq_top.mp hwaits⟩ _ _ _ _ _).1

end Eidetic.Retrieval
