import Eidetic.Lib.OrderBy
import Eidetic.Lib.Rows
import Eidetic.Lib.Run
import Eidetic.Py.Text
import Mathlib.Logic.Function.Basic

/-!
# Re-embedding after a change of the model

A start of the backend records the new model and then queues a batch job for
every hundred rows, which reads its page of the rows when it runs. What is
recorded is not queued again, so a row is embedded anew as long as nothing that
is still to do it lets it go (`complete_of_lossless`): no startup ends between
the record and the last job, no job misses a row that it was queued for, and no
embedding fails.

The rows are those of two tables with the model of each embedding. A page of a
job is a slice of the rows in an order that the query may return, so with rows
of one time two jobs can miss a row or both have it, and rows that come or go
move the slices. A startup records the model, counts the rows of the two tables
and enqueues the batches one by one; each of these is a step, and it may end
after any of them.

The invariant is `Safe`: whatever is `Owed`, a row that was there when the model
was recorded and has no embedding of it, is covered by a call that is still to
queue its batch or by a job that has it in its slice. Every event has its lemma,
and `Lossless`, the condition of the result, is asked where a call or a job
ends: nothing is left to it alone. When nothing is left to do nothing is owed
(`complete_of_safe`).
-/

namespace Eidetic.Jobs

open Eidetic.Lib Eidetic.Py

/-! ## The rows and the batches -/

inductive Table
  | fileChunk
  | messageEmbedding
deriving DecidableEq

/-- A row with an embedding, and the model that has made it. -/
structure EmbeddedRow where
  id : Nat
  table : Table
  createdAt : Int
  embedding : Option Text
  /-- It was there when the model was recorded. -/
  due : Bool := false
deriving DecidableEq

/-- A job that is queued for a page of a table, and the rows that the page had. -/
structure Batch where
  table : Table
  offset : Nat
  slice : List Nat

/-- `BATCH_SIZE`. -/
def batchSize : Nat := 100

/-- `OFFSET … LIMIT batch_size`. -/
def page (order : List EmbeddedRow) (offset : Nat) : List Nat :=
  ((order.drop offset).take batchSize).map EmbeddedRow.id

/-- `range(0, count, BATCH_SIZE)`. -/
def offsets (count : Nat) : List Nat :=
  (List.range ((count + (batchSize - 1)) / batchSize)).map (· * batchSize)

/-- The jobs for a table whose rows come in an order. -/
def batches (table : Table) (order : List EmbeddedRow) : List Batch :=
  (offsets order.length).map fun offset => ⟨table, offset, page order offset⟩

/-! ## Startups and jobs -/

/-- Where a call of `check_and_queue_re_embed` or `queue_re_embed_force` is. -/
inductive Caller
  | idle
  /-- Before the commit of the model, with the value that was read. -/
  | checked (loaded : Option Text) (model : Text)
  | recorded
  | chunksCounted (chunks : List Batch)
  | queueing (jobs : List Batch)

structure BatchJob where
  batch : Batch
  attempt : Nat := 1
  /-- The rows that it has read. -/
  read : Option (List Nat) := none

structure Embeddings where
  rows : Rows EmbeddedRow.id := Rows.empty
  /-- The row `embedding_model` of `system_config`. -/
  recorded : Option Text := none
  callers : Nat → Caller := fun _ => .idle
  jobs : Nat → Option BatchJob := fun _ => none

inductive EmbedEvent
  | insert (row : EmbeddedRow)
  | delete (id : Nat)
  /-- `check_and_queue_re_embed` of a process, up to its commit. -/
  | check (p : Nat) (model : Text)
  /-- `queue_re_embed_force`, up to its commit. -/
  | force (p : Nat) (model : Text)
  | record (p : Nat)
  /-- A count, when a query could return the rows in an order. -/
  | countChunks (p : Nat) (order : List EmbeddedRow)
  | countMessages (p : Nat) (order : List EmbeddedRow) (pool : Bool)
  | enqueue (p j : Nat) (accepted : Bool)
  /-- The call ends, by an exception or with its process. -/
  | crash (p : Nat)
  /-- A job reads the table, which comes in an order. -/
  | start (j : Nat) (order : List EmbeddedRow)
  /-- It commits, with the embeddings that a model has made of its rows. -/
  | finish (j : Nat) (model : Text) (embedded : Nat → Bool)
  /-- It raises. The queue does not run it again. -/
  | fail (j : Nat)
  /-- Its worker is shut down. The queue runs it again, up to the last attempt. -/
  | cancel (j : Nat)

namespace Embeddings

def call (s : Embeddings) (p : Nat) (caller : Caller) : Embeddings :=
  { s with callers := Function.update s.callers p caller }

def setJob (s : Embeddings) (j : Nat) (job : Option BatchJob) : Embeddings :=
  { s with jobs := Function.update s.jobs j job }

def tableRows (s : Embeddings) (table : Table) : List EmbeddedRow :=
  s.rows.list.filter fun r => r.table = table

/-- An order in which a query sorted by `created_at` may return a table. -/
abbrev Reads (s : Embeddings) (table : Table) (order : List EmbeddedRow) : Prop :=
  Orders EmbeddedRow.createdAt (s.tableRows table) order

end Embeddings

/-- The commit of the model: an insert fails if the row is there by then, and a
value that is not changed is not written. -/
def recordModel (s : Embeddings) (p : Nat) (loaded : Option Text) (model : Text) : Embeddings :=
  if loaded.isNone ∧ s.recorded.isSome then s.call p .idle
  else
    let recorded := if loaded = some model then s.recorded else some model
    if recorded = some model then
      { s with
        recorded := some model
        rows := s.rows.update (fun r => { r with due := true }) fun _ => rfl }.call p .recorded
    else s.call p .recorded

def EmbeddedRow.embed (ids : List Nat) (model : Text) (r : EmbeddedRow) : EmbeddedRow :=
  if r.id ∈ ids then { r with embedding := some model } else r

theorem EmbeddedRow.embed_keeps (ids : List Nat) (model : Text) (r : EmbeddedRow) :
    (r.embed ids model).id = r.id ∧ (r.embed ids model).table = r.table ∧
      (r.embed ids model).due = r.due := by
  unfold EmbeddedRow.embed
  split
  next => exact ⟨rfl, rfl, rfl⟩
  next => exact ⟨rfl, rfl, rfl⟩

/-- Every row is still there. -/
def Embeddings.present (s : Embeddings) (ids : List Nat) : Bool := ids.all fun id => (s.rows.find id).isSome

/-- The commit of `re_embed_batch_job`; the update of a row that is gone raises. -/
def finishBatch (s : Embeddings) (j : Nat) (ids : List Nat) (model : Text) : Embeddings :=
  if s.present ids then
    { s with
      rows := s.rows.update (EmbeddedRow.embed ids model) fun r => (r.embed_keeps ids model).1 }.setJob j none
  else s.setJob j none

/-- `_MAX_TRIES`. -/
def maxTries : Nat := 4

def Embeddings.next (s : Embeddings) : EmbedEvent → Embeddings
  | .insert row => { s with rows := s.rows.insert { row with due := false } }
  | .delete id => { s with rows := s.rows.delete id }
  | .check p model =>
    match s.callers p with
    -- what is recorded is taken for done
    | .idle => if s.recorded = some model then s else s.call p (.checked s.recorded model)
    | _ => s
  | .force p model =>
    match s.callers p with
    | .idle => s.call p (.checked s.recorded model)
    | _ => s
  | .record p =>
    match s.callers p with
    | .checked loaded model => recordModel s p loaded model
    | _ => s
  | .countChunks p order =>
    match s.callers p with
    | .recorded =>
      if s.Reads .fileChunk order then s.call p (.chunksCounted (batches .fileChunk order)) else s
    | _ => s
  | .countMessages p order pool =>
    match s.callers p with
    | .chunksCounted chunks =>
      if s.Reads .messageEmbedding order then
        -- without a pool it returns, and nothing is queued
        s.call p (if pool then .queueing (chunks ++ batches .messageEmbedding order) else .idle)
      else s
    | _ => s
  | .enqueue p j accepted =>
    match s.callers p with
    | .queueing (b :: rest) =>
      if !accepted then s.call p .idle
      else if (s.jobs j).isNone then
        (s.setJob j (some { batch := b })).call p (if rest.isEmpty then .idle else .queueing rest)
      else s
    | .queueing [] => s.call p .idle
    | _ => s
  | .crash p => s.call p .idle
  | .start j order =>
    match s.jobs j with
    | some job =>
      if job.read.isNone ∧ s.Reads job.batch.table order then
        s.setJob j (some { job with read := some (page order job.batch.offset) })
      else s
    | none => s
  | .finish j model embedded =>
    match s.jobs j with
    -- a row of which `embed` makes nothing is passed over
    | some { read := some ids, .. } => finishBatch s j (ids.filter embedded) model
    | _ => s
  | .fail j => s.setJob j none
  | .cancel j =>
    match s.jobs j with
    | some job =>
      s.setJob j (if job.attempt < maxTries then some { job with attempt := job.attempt + 1, read := none }
        else none)
    | none => s

/-! ## What is asked of a run -/

/-- Nothing is queued, nor about to be. -/
def Quiet (s : Embeddings) : Prop := (∀ p, s.callers p = .idle) ∧ ∀ j, s.jobs j = none

/-- When nothing is left to do, every row that was there when the model was
recorded has an embedding of it. -/
def Complete (s : Embeddings) : Prop :=
  ∀ model, s.recorded = some model → Quiet s → ∀ r ∈ s.rows.list, r.due = true → r.embedding = some model

/-- A row that is to be embedded anew. -/
def Owed (s : Embeddings) (r : EmbeddedRow) : Prop :=
  r ∈ s.rows.list ∧ r.due = true ∧ ∃ model, s.recorded = some model ∧ r.embedding ≠ some model

/-- The jobs for a row are counted, or are about to be. -/
def Caller.covers (r : EmbeddedRow) : Caller → Prop
  | .idle | .checked _ _ => False
  | .recorded => True
  | .chunksCounted chunks => r.table = .messageEmbedding ∨ ∃ b ∈ chunks, r.id ∈ b.slice
  | .queueing jobs => ∃ b ∈ jobs, r.id ∈ b.slice

/-- A job is queued for a row, or has read it. -/
def BatchJob.covers (r : EmbeddedRow) (job : BatchJob) : Prop :=
  r.id ∈ job.batch.slice ∨ ∃ ids, job.read = some ids ∧ r.id ∈ ids

/-- A call is to queue a job for the row, or a job is pending, but for the call
or the job that is left out. -/
def CoveredBut (s : Embeddings) (caller job : Option Nat) (r : EmbeddedRow) : Prop :=
  (∃ p, caller ≠ some p ∧ (s.callers p).covers r) ∨
    ∃ j b, job ≠ some j ∧ s.jobs j = some b ∧ b.covers r

/-- After the commit of a job that has read these rows, the row has an embedding
of the recorded model: the one the job has made, or the one it had. -/
def Renewed (s : Embeddings) (ids : List Nat) (model : Text) (embedded : Nat → Bool) (r : EmbeddedRow) :
    Prop :=
  if s.present (ids.filter embedded) = true ∧ r.id ∈ ids.filter embedded then s.recorded = some model
  else r.embedding = s.recorded

/-- What a call or a job that ends leaves undone, another is still to do. -/
def Lossless (s : Embeddings) : EmbedEvent → Prop
  | .countMessages p _ false | .enqueue p _ false | .crash p =>
    ∀ r, Owed s r → (s.callers p).covers r → CoveredBut s (some p) none r
  | .finish j model embedded => ∀ job, s.jobs j = some job → ∀ ids, job.read = some ids →
    ∀ r ∈ s.rows.list, r.due = true → s.recorded.isSome = true → job.covers r →
      Renewed s ids model embedded r ∨ CoveredBut s none (some j) r
  | .fail j => ∀ job, s.jobs j = some job → ∀ r, Owed s r → job.covers r → CoveredBut s none (some j) r
  | .cancel j => ∀ job, s.jobs j = some job → ∀ r, Owed s r → job.covers r →
    job.attempt < maxTries ∧ r.id ∈ job.batch.slice ∨ CoveredBut s none (some j) r
  | _ => True

/-! ## One step -/

/-- Every row that is to be embedded anew is covered. -/
def Safe (s : Embeddings) : Prop := ∀ r, Owed s r → CoveredBut s none none r

variable {s : Embeddings} {r : EmbeddedRow} {p j : Nat}

theorem complete_of_safe (h : Safe s) : Complete s := by
  intro model hrecorded hquiet r hr hdue
  by_contra hstale
  rcases h r ⟨hr, hdue, model, hrecorded, hstale⟩ with ⟨p, _, hcaller⟩ | ⟨j, b, _, hjob, _⟩
  · rw [hquiet.1 p] at hcaller
    exact hcaller
  · rw [hquiet.2 j] at hjob
    exact absurd hjob (by simp)

theorem safe_init : Safe {} := fun _ howed => absurd howed.1 List.not_mem_nil

/-- Only the id and the table of a row matter. -/
theorem CoveredBut.congr {caller job : Option Nat} {r' : EmbeddedRow} (h : CoveredBut s caller job r)
    (hid : r'.id = r.id) (htable : r'.table = r.table) : CoveredBut s caller job r' := by
  rcases h with ⟨q, hq, hcovers⟩ | ⟨i, b, hi, hjob, hcovers⟩
  · refine .inl ⟨q, hq, ?_⟩
    unfold Caller.covers at hcovers ⊢
    rwa [hid, htable]
  · refine .inr ⟨i, b, hi, hjob, ?_⟩
    unfold BatchJob.covers at hcovers ⊢
    rwa [hid]

theorem coveredBut_call {c : Caller} (h : CoveredBut s (some p) none r) :
    CoveredBut (s.call p c) none none r := by
  rcases h with ⟨q, hq, hcovers⟩ | ⟨j, b, _, hjob, hcovers⟩
  · have hne : q ≠ p := fun heq => hq (congrArg some heq.symm)
    refine .inl ⟨q, by simp, ?_⟩
    show (Function.update s.callers p c q).covers r
    rwa [Function.update_of_ne hne]
  · exact .inr ⟨j, b, by simp, hjob, hcovers⟩

theorem coveredBut_setJob {job : Option BatchJob} (h : CoveredBut s none (some j) r) :
    CoveredBut (s.setJob j job) none none r := by
  rcases h with ⟨q, _, hcovers⟩ | ⟨i, b, hi, hjob, hcovers⟩
  · exact .inl ⟨q, by simp, hcovers⟩
  · have hne : i ≠ j := fun heq => hi (congrArg some heq.symm)
    refine .inr ⟨i, b, by simp, ?_, hcovers⟩
    show Function.update s.jobs j job i = some b
    rwa [Function.update_of_ne hne]

/-- A covered row is covered without a job that does not cover it. -/
theorem coveredBut_of_not (h : CoveredBut s none none r) (hnot : ∀ b, s.jobs j = some b → ¬ b.covers r) :
    CoveredBut s none (some j) r := by
  rcases h with ⟨q, _, hcovers⟩ | ⟨i, b, _, hjob, hcovers⟩
  · exact .inl ⟨q, by simp, hcovers⟩
  · refine .inr ⟨i, b, ?_, hjob, hcovers⟩
    intro heq
    obtain rfl := Option.some.inj heq
    exact hnot b hjob hcovers

/-- A call goes on, and covers what it did. -/
theorem Safe.call (h : Safe s) {c : Caller}
    (hc : ∀ r, Owed s r → (s.callers p).covers r → c.covers r ∨ CoveredBut s (some p) none r) :
    Safe (s.call p c) := by
  intro r howed
  rcases h r howed with ⟨q, _, hcovers⟩ | ⟨j, b, _, hjob, hcovers⟩
  · by_cases heq : q = p
    · subst heq
      rcases hc r howed hcovers with hstill | hother
      · refine .inl ⟨q, by simp, ?_⟩
        show (Function.update s.callers q c q).covers r
        rwa [Function.update_self]
      · exact coveredBut_call hother
    · exact coveredBut_call (.inl ⟨q, fun h => heq (Option.some.inj h).symm, hcovers⟩)
  · exact .inr ⟨j, b, by simp, hjob, hcovers⟩

theorem Safe.setJob (h : Safe s) {job : Option BatchJob}
    (hjob : ∀ r, Owed s r → ∀ b, s.jobs j = some b → b.covers r →
      (∃ b', job = some b' ∧ b'.covers r) ∨ CoveredBut s none (some j) r) :
    Safe (s.setJob j job) := by
  intro r howed
  by_cases hcovers : ∃ b, s.jobs j = some b ∧ b.covers r
  · obtain ⟨b, hb, hcovers⟩ := hcovers
    rcases hjob r howed b hb hcovers with ⟨b', rfl, hstill⟩ | hother
    · refine .inr ⟨j, b', by simp, ?_, hstill⟩
      show Function.update s.jobs j (some b') j = some b'
      rw [Function.update_self]
    · exact coveredBut_setJob hother
  · refine coveredBut_setJob (coveredBut_of_not (h r howed) ?_)
    exact fun b hb hb' => hcovers ⟨b, hb, hb'⟩

/-! ### The batches of a table -/

/-- Every row is in the slice of a batch. -/
theorem exists_batch (table : Table) {order : List EmbeddedRow} (h : r ∈ order) :
    ∃ b ∈ batches table order, r.id ∈ b.slice := by
  obtain ⟨i, hi, rfl⟩ := List.mem_iff_getElem.mp h
  have hpage : batchSize * (i / batchSize) ≤ i := Nat.mul_div_le i batchSize
  refine ⟨⟨table, i / batchSize * batchSize, page order (i / batchSize * batchSize)⟩, ?_, ?_⟩
  · refine List.mem_map.mpr ⟨i / batchSize * batchSize, ?_, rfl⟩
    refine List.mem_map.mpr ⟨i / batchSize, ?_, rfl⟩
    rw [List.mem_range]
    unfold batchSize at *
    omega
  · refine List.mem_map.mpr ⟨order[i], ?_, rfl⟩
    rw [List.mem_take_iff_getElem]
    refine ⟨i - i / batchSize * batchSize, ?_, ?_⟩
    · rw [List.length_drop]
      unfold batchSize at *
      omega
    · rw [List.getElem_drop]
      congr 1
      unfold batchSize at *
      omega

/-- A query returns every row of its table. -/
theorem mem_of_reads {table : Table} {order : List EmbeddedRow} (h : s.Reads table order)
    (hr : r ∈ s.rows.list) (htable : r.table = table) : r ∈ order :=
  h.perm.mem_iff.mpr (List.mem_filter.mpr ⟨hr, decide_eq_true htable⟩)

/-! ### The events -/

/-- The rows change, and none is to be embedded anew that was not. -/
theorem Safe.rows (h : Safe s) {rows : Rows EmbeddedRow.id}
    (hrows : ∀ r, Owed { s with rows := rows } r → Owed s r) : Safe { s with rows := rows } :=
  fun r howed => h r (hrows r howed)

theorem Safe.record (h : Safe s) (loaded : Option Text) (model : Text)
    (hp : s.callers p = .checked loaded model) : Safe (recordModel s p loaded model) := by
  have hnothing : ∀ r, ¬ (s.callers p).covers r := by
    intro r hcovers
    rw [hp] at hcovers
    exact hcovers
  unfold recordModel
  split
  next => exact h.call fun r _ hcovers => absurd hcovers (hnothing r)
  next =>
    dsimp only
    by_cases hmodel : (if loaded = some model then s.recorded else some model) = some model
    · rw [if_pos hmodel]
      -- the call is to queue jobs for all rows
      intro r _
      refine .inl ⟨p, by simp, ?_⟩
      show (Function.update s.callers p .recorded p).covers r
      rw [Function.update_self]
      trivial
    · rw [if_neg hmodel]
      exact h.call fun r _ hcovers => absurd hcovers (hnothing r)

theorem Safe.countChunks (h : Safe s) {order : List EmbeddedRow} (horder : s.Reads .fileChunk order) :
    Safe (s.call p (.chunksCounted (batches .fileChunk order))) := by
  refine h.call ?_
  intro r howed _
  left
  cases htable : r.table with
  | fileChunk => exact .inr (exists_batch .fileChunk (mem_of_reads horder howed.1 htable))
  | messageEmbedding => exact .inl htable

theorem Safe.countMessages (h : Safe s) {chunks : List Batch} {order : List EmbeddedRow} {pool : Bool}
    (hp : s.callers p = .chunksCounted chunks) (horder : s.Reads .messageEmbedding order)
    (hlossless : Lossless s (.countMessages p order pool)) :
    Safe (s.call p (if pool then .queueing (chunks ++ batches .messageEmbedding order) else .idle)) := by
  refine h.call ?_
  intro r howed hcovers
  cases pool with
  | false => exact .inr (hlossless r howed hcovers)
  | true =>
    left
    show ∃ b ∈ chunks ++ batches .messageEmbedding order, r.id ∈ b.slice
    rw [hp] at hcovers
    rcases hcovers with htable | ⟨b, hb, hslice⟩
    · obtain ⟨b, hb, hslice⟩ := exists_batch .messageEmbedding (mem_of_reads horder howed.1 htable)
      exact ⟨b, List.mem_append_right _ hb, hslice⟩
    · exact ⟨b, List.mem_append_left _ hb, hslice⟩

/-- The first job of a call is pending, and the call goes on with the others. -/
theorem Safe.enqueue (h : Safe s) {b : Batch} {rest : List Batch} (hp : s.callers p = .queueing (b :: rest))
    (hfree : s.jobs j = none) :
    Safe ((s.setJob j (some { batch := b })).call p (if rest.isEmpty then .idle else .queueing rest)) := by
  have hqueued : Safe (s.setJob j (some { batch := b })) := by
    refine h.setJob ?_
    intro r _ b' hb'
    rw [hfree] at hb'
    exact absurd hb' (by simp)
  refine hqueued.call ?_
  intro r _ hcovers
  change (s.callers p).covers r at hcovers
  rw [hp] at hcovers
  obtain ⟨b', hb', hslice⟩ := hcovers
  rcases List.mem_cons.mp hb' with rfl | hrest
  · refine .inr (.inr ⟨j, { batch := b' }, by simp, ?_, .inl hslice⟩)
    show Function.update s.jobs j (some { batch := b' }) j = some { batch := b' }
    rw [Function.update_self]
  · left
    rw [if_neg (by simpa using List.ne_nil_of_mem hrest)]
    exact ⟨b', hrest, hslice⟩

/-- A job has embedded its rows, or its commit has raised. -/
theorem Safe.finish (h : Safe s) {job : BatchJob} {ids : List Nat} {model : Text} {embedded : Nat → Bool}
    (hjob : s.jobs j = some job) (hread : job.read = some ids)
    (hlossless : Lossless s (.finish j model embedded)) :
    Safe (finishBatch s j (ids.filter embedded) model) := by
  have hother : ∀ r ∈ s.rows.list, r.due = true → s.recorded.isSome = true →
      (¬ Renewed s ids model embedded r) → CoveredBut s none (some j) r := by
    intro r hr hdue hsome hnot
    by_cases hcovers : job.covers r
    · exact (hlossless job hjob ids hread r hr hdue hsome hcovers).resolve_left hnot
    · have hid : r.id ∉ ids := fun hmem => hcovers (.inr ⟨ids, hread, hmem⟩)
      have hstale : r.embedding ≠ s.recorded := by
        unfold Renewed at hnot
        rwa [if_neg fun hhit => hid (List.mem_filter.mp hhit.2).1] at hnot
      obtain ⟨model', hrecorded⟩ := Option.isSome_iff_exists.mp hsome
      refine coveredBut_of_not (h r ⟨hr, hdue, model', hrecorded, hrecorded ▸ hstale⟩) ?_
      intro b hb
      rw [hjob] at hb
      exact Option.some.inj hb ▸ hcovers
  unfold finishBatch
  split
  next hpresent =>
    intro r' ⟨hr', hdue, model', hrecorded, hstale⟩
    obtain ⟨r, hr, rfl⟩ := List.mem_map.mp hr'
    change s.recorded = some model' at hrecorded
    have hnot : ¬ Renewed s ids model embedded r := by
      intro hrenewed
      unfold Renewed at hrenewed
      by_cases hhit : r.id ∈ ids.filter embedded
      · rw [if_pos ⟨hpresent, hhit⟩, hrecorded] at hrenewed
        exact hstale ((congrArg EmbeddedRow.embedding (if_pos hhit)).trans hrenewed.symm)
      · rw [if_neg fun h => hhit h.2, hrecorded] at hrenewed
        exact hstale ((congrArg EmbeddedRow.embedding (if_neg hhit)).trans hrenewed)
    obtain ⟨hid, htable, hdue'⟩ := r.embed_keeps (ids.filter embedded) model
    have hcovered := hother r hr (hdue' ▸ hdue) (by rw [hrecorded]; rfl) hnot
    exact (coveredBut_setJob hcovered).congr hid htable
  next habsent =>
    intro r ⟨hr, hdue, model', hrecorded, hstale⟩
    change s.recorded = some model' at hrecorded
    have hnot : ¬ Renewed s ids model embedded r := by
      unfold Renewed
      rw [if_neg fun h => habsent h.1, hrecorded]
      exact hstale
    exact coveredBut_setJob (hother r hr hdue (by rw [hrecorded]; rfl) hnot)

/-- A row that is inserted is not due. -/
theorem Safe.inserted (h : Safe s) (row : EmbeddedRow) : Safe (s.next (.insert row)) := by
  refine h.rows ?_
  intro r ⟨hr, hdue, hstale⟩
  rcases Rows.mem_of_mem_insert hr with hold | rfl
  · exact ⟨hold, hdue, hstale⟩
  · exact absurd hdue (by simp)

theorem Safe.deleted (h : Safe s) (id : Nat) : Safe (s.next (.delete id)) := by
  refine h.rows ?_
  intro r ⟨hr, hdue, hstale⟩
  exact ⟨(Rows.mem_delete.mp hr).1, hdue, hstale⟩

/-- A call that begins leaves nothing that it was still to do. -/
theorem Safe.checked (h : Safe s) (p : Nat) (model : Text) : Safe (s.next (.check p model)) := by
  unfold Embeddings.next
  dsimp only
  split
  next hp =>
    split
    next => exact h
    next =>
      refine h.call ?_
      intro r _ hcovers
      rw [hp] at hcovers
      exact absurd hcovers id
  next => exact h

theorem Safe.forced (h : Safe s) (p : Nat) (model : Text) : Safe (s.next (.force p model)) := by
  unfold Embeddings.next
  dsimp only
  split
  next hp =>
    refine h.call ?_
    intro r _ hcovers
    rw [hp] at hcovers
    exact absurd hcovers id
  next => exact h

theorem Safe.recorded (h : Safe s) (p : Nat) : Safe (s.next (.record p)) := by
  unfold Embeddings.next
  dsimp only
  split
  next loaded model hp => exact h.record loaded model hp
  next => exact h

theorem Safe.countedChunks (h : Safe s) (p : Nat) (order : List EmbeddedRow) :
    Safe (s.next (.countChunks p order)) := by
  unfold Embeddings.next
  dsimp only
  split
  next =>
    split
    next horder => exact h.countChunks horder
    next => exact h
  next => exact h

theorem Safe.countedMessages (h : Safe s) {p : Nat} {order : List EmbeddedRow} {pool : Bool}
    (hlossless : Lossless s (.countMessages p order pool)) :
    Safe (s.next (.countMessages p order pool)) := by
  unfold Embeddings.next
  dsimp only
  split
  next chunks hp =>
    split
    next horder => exact h.countMessages hp horder hlossless
    next => exact h
  next => exact h

/-- A batch goes from the call to its job, or is left undone. -/
theorem Safe.enqueued (h : Safe s) {p j : Nat} {accepted : Bool}
    (hlossless : Lossless s (.enqueue p j accepted)) : Safe (s.next (.enqueue p j accepted)) := by
  unfold Embeddings.next
  dsimp only
  split
  next b rest hp =>
    cases accepted with
    | false => exact h.call fun r howed hcovers => .inr (hlossless r howed hcovers)
    | true =>
      rw [if_neg (by simp)]
      split
      next hfree => exact h.enqueue hp (Option.isNone_iff_eq_none.mp hfree)
      next => exact h
  next hp =>
    refine h.call ?_
    intro r _ hcovers
    rw [hp] at hcovers
    obtain ⟨b, hb, _⟩ := hcovers
    exact absurd hb List.not_mem_nil
  next => exact h

/-- A job has its slice, or the rows that it reads there. -/
theorem Safe.started (h : Safe s) (j : Nat) (order : List EmbeddedRow) :
    Safe (s.next (.start j order)) := by
  unfold Embeddings.next
  dsimp only
  split
  next job hjob =>
    split
    next hread =>
      refine h.setJob ?_
      intro r _ b hb hcovers
      obtain rfl := Option.some.inj (hjob.symm.trans hb)
      refine .inl ⟨_, rfl, ?_⟩
      rcases hcovers with hslice | ⟨ids, hids, _⟩
      · exact .inl hslice
      · rw [Option.isNone_iff_eq_none.mp hread.1] at hids
        exact absurd hids (by simp)
    next => exact h
  next => exact h

theorem Safe.finished (h : Safe s) {j : Nat} {model : Text} {embedded : Nat → Bool}
    (hlossless : Lossless s (.finish j model embedded)) : Safe (s.next (.finish j model embedded)) := by
  unfold Embeddings.next
  dsimp only
  split
  next batch attempt ids hjob => exact h.finish hjob rfl hlossless
  next => exact h

theorem Safe.failed (h : Safe s) {j : Nat} (hlossless : Lossless s (.fail j)) : Safe (s.next (.fail j)) := by
  refine h.setJob ?_
  intro r howed b hb hcovers
  exact .inr (hlossless b hb r howed hcovers)

/-- A job that is shut down has its slice again, up to its last attempt. -/
theorem Safe.cancelled (h : Safe s) {j : Nat} (hlossless : Lossless s (.cancel j)) :
    Safe (s.next (.cancel j)) := by
  unfold Embeddings.next
  dsimp only
  split
  next job hjob =>
    refine h.setJob ?_
    intro r howed b hb hcovers
    obtain rfl := Option.some.inj (hjob.symm.trans hb)
    rcases hlossless job hjob r howed hcovers with ⟨hattempt, hslice⟩ | hother
    · rw [if_pos hattempt]
      exact .inl ⟨_, rfl, .inl hslice⟩
    · exact .inr hother
  next => exact h

/-- What is owed stays with a call or a job, whatever the event. -/
theorem Safe.next (h : Safe s) {e : EmbedEvent} (hlossless : Lossless s e) : Safe (s.next e) := by
  cases e with
  | insert row => exact h.inserted row
  | delete id => exact h.deleted id
  | check p model => exact h.checked p model
  | force p model => exact h.forced p model
  | record p => exact h.recorded p
  | countChunks p order => exact h.countedChunks p order
  | countMessages p order pool => exact h.countedMessages hlossless
  | enqueue p j accepted => exact h.enqueued hlossless
  | crash p => exact h.call fun r howed hcovers => .inr (hlossless r howed hcovers)
  | start j order => exact h.started j order
  | finish j model embedded => exact h.finished hlossless
  | fail j => exact h.failed hlossless
  | cancel j => exact h.cancelled hlossless

/-! ## Runs -/

/-- In every run in which whatever ends leaves nothing undone that another is not
still to do, every row that was there when a model was recorded has an embedding
of it whenever nothing is left to do. -/
theorem complete_of_lossless (events : List EmbedEvent)
    (h : Throughout Embeddings.next Lossless {} events) :
    ∀ before after, events = before ++ after → Complete (run Embeddings.next {} before) := by
  intro before after heq
  subst heq
  have hbefore := (throughout_append.mp h).1
  exact complete_of_safe (run_invariant Safe (fun _ _ hsafe hlossless => hsafe.next hlossless) safe_init hbefore)

def oldModel : Text := "embed-1".toList

def newModel : Text := "embed-2".toList

def oldChunk : EmbeddedRow := ⟨0, .fileChunk, 0, some oldModel, false⟩

/-- A chunk is there when a startup records a new model and counts the chunks. -/
def modelChanged : List EmbedEvent :=
  [.insert oldChunk, .check 0 newModel, .record 0, .countChunks 0 [{ oldChunk with due := true }]]

/-- The startup queues a job, which embeds the chunk. -/
def renewedChunk : List EmbedEvent :=
  modelChanged ++ [.countMessages 0 [] true, .enqueue 0 0 true,
    .start 0 [{ oldChunk with due := true }], .finish 0 newModel fun _ => true]

theorem renewedChunk_complete : Complete (run Embeddings.next {} renewedChunk) := by
  have hfinish : Lossless (run Embeddings.next {} (renewedChunk.take 7)) (.finish 0 newModel fun _ => true) := by
    intro job hjob ids hread r hr _ _ _
    have hpending : (run Embeddings.next {} (renewedChunk.take 7)).jobs 0 =
        some ⟨⟨.fileChunk, 0, [0]⟩, 1, some [0]⟩ := rfl
    have hrows : (run Embeddings.next {} (renewedChunk.take 7)).rows.list =
        [{ oldChunk with due := true }] := rfl
    obtain rfl := Option.some.inj (hpending.symm.trans hjob)
    obtain rfl : [0] = ids := Option.some.inj hread
    rw [hrows] at hr
    obtain rfl := List.mem_singleton.mp hr
    left
    unfold Renewed
    rw [if_pos (by decide)]
    rfl
  exact complete_of_lossless renewedChunk
    ⟨trivial, trivial, trivial, trivial, trivial, trivial, trivial, hfinish, trivial⟩ renewedChunk []
    (List.append_nil _).symm

/-! ## A startup without a queue -/

/-- The queue could not be reached when the backend started. -/
def noPool : List EmbedEvent := modelChanged ++ [.countMessages 0 [] false]

theorem noPool_stale : ¬ ∀ events : List EmbedEvent, Complete (run Embeddings.next {} events) := by
  intro h
  have hrecorded : (run Embeddings.next {} noPool).recorded = some newModel := rfl
  have hquiet : Quiet (run Embeddings.next {} noPool) := by
    refine ⟨?_, fun _ => rfl⟩
    intro p
    by_cases hp : p = 0
    · rw [hp]
      rfl
    · show Function.update (Function.update (Function.update (Function.update (fun _ => Caller.idle) 0 _) 0 _) 0 _)
        0 Caller.idle p = .idle
      rw [Function.update_of_ne hp, Function.update_of_ne hp, Function.update_of_ne hp,
        Function.update_of_ne hp]
  have hrows : (run Embeddings.next {} noPool).rows.list = [{ oldChunk with due := true }] := rfl
  have hembedding := h noPool newModel hrecorded hquiet { oldChunk with due := true }
    (hrows ▸ List.mem_singleton_self _) rfl
  exact absurd hembedding (by decide)

end Eidetic.Jobs
