import Eidetic.Files.Chunks
import Eidetic.Files.Edit
import Eidetic.Lib.Run
import Mathlib.Data.List.Perm.Basic
import Mathlib.Logic.Function.Basic

/-!
# Edits and the jobs they enqueue

One text file under any number of edits and processing jobs. An edit writes the
file, deletes the chunks it sees in one transaction and enqueues a job; a job
reads the file once and inserts the chunks later, and deletes nothing. So two
jobs that both insert after the last delete leave two sets of chunks
(`twoJobs_doubled`). As long as the chunks are deleted only when no job is
queued or running and no other delete is uncommitted, the chunks are those of
the file once everything is done (`converged_of_serial`).

The invariant is `Settled`. Where no edit is between its write and its
enqueueing, either the chunks are those of the file and no job is pending, or
one job is, it will read the file as it is or has read it, and there are no
chunks. A delete in progress has found all the rows there are and is alone. Each
phase of an edit and of a job has a lemma of its own; `Settled.editTo` and
`Settled.jobTo` are those that move one of them and touch neither the file nor
the rows.

The condition is on the step that deletes. The other side names a run: a job
that is queued when the chunks are deleted inserts the new ones, and so does the
job that the edit enqueues (`doubled_of_queued`).
-/

namespace Eidetic.Files

open Eidetic.Lib Eidetic.Py

/-- What `_process` writes of a chunk. -/
structure Chunk where
  chunkIndex : Nat
  content : Text
  tokenCount : Nat
deriving DecidableEq

/-- A row of `file_chunks`. Rows of different jobs are different rows. -/
structure ChunkRow where
  job : Nat
  chunk : Chunk
deriving DecidableEq

/-- The chunks `_process` makes of a text, with their places. -/
def chunksOf (text : Text) : List Chunk :=
  (chunkText text).mapIdx fun i chunk => ⟨i, chunk, (words chunk).length⟩

/-- `extract_text` of a text file, and what `_process` makes of it. -/
def fileChunks (disk : List UInt8) : List Chunk := chunksOf (readText disk)

/-- Where an edit is. -/
inductive EditPhase
  | idle
  | planned (write : DiskWrite)
  | opened (write : DiskWrite)
  | wrote
  /-- The rows that its uncommitted `DELETE` has found. -/
  | deleting (found : List ChunkRow)
  | done
deriving DecidableEq

/-- Where a job is. -/
inductive JobPhase
  | absent
  | queued
  | chunked (chunks : List Chunk)
  | done
deriving DecidableEq

/-- The file on disk, its committed chunks, the edits and the jobs. -/
structure FileStore where
  disk : List UInt8
  rows : List ChunkRow
  edits : Nat → EditPhase := fun _ => .idle
  jobs : Nat → JobPhase := fun _ => .absent
  /-- The number of the next job. -/
  nextJob : Nat := 0

/-- What can happen next. -/
inductive FileEvent
  | begin (edit : Nat) (operation : FileEdit)
  | openFile (edit : Nat)
  | put (edit : Nat)
  | deleteChunks (edit : Nat)
  | commit (edit : Nat)
  /-- The edit answers with an error, and its transaction is not committed. -/
  | fail (edit : Nat)
  | readFile (job : Nat)
  | insert (job : Nat)
  /-- The job raises, and is retried or given up. -/
  | failJob (job : Nat) (retry : Bool)

def FileStore.editTo (s : FileStore) (edit : Nat) (phase : EditPhase) : FileStore :=
  { s with edits := Function.update s.edits edit phase }

def FileStore.jobTo (s : FileStore) (job : Nat) (phase : JobPhase) : FileStore :=
  { s with jobs := Function.update s.jobs job phase }

def FileStore.step (s : FileStore) : FileEvent → FileStore
  | .begin edit operation =>
    match s.edits edit with
    | .idle =>
      match operation.plan s.disk with
      | some write => s.editTo edit (.planned write)
      | none => s.editTo edit .done
    | _ => s
  | .openFile edit =>
    match s.edits edit with
    | .planned write => { s with disk := write.opened s.disk }.editTo edit (.opened write)
    | _ => s
  | .put edit =>
    match s.edits edit with
    | .opened write => { s with disk := write.put s.disk }.editTo edit .wrote
    | _ => s
  | .deleteChunks edit =>
    match s.edits edit with
    | .wrote => s.editTo edit (.deleting s.rows)
    | _ => s
  | .commit edit =>
    match s.edits edit with
    | .deleting found =>
      ({ s with
          rows := s.rows.filter fun row => row ∉ found
          nextJob := s.nextJob + 1 }.editTo edit .done).jobTo s.nextJob .queued
    | _ => s
  | .fail edit =>
    match s.edits edit with
    | .idle => s
    | _ => s.editTo edit .done
  | .readFile job =>
    match s.jobs job with
    | .queued => s.jobTo job (.chunked (fileChunks s.disk))
    | _ => s
  | .insert job =>
    match s.jobs job with
    | .chunked chunks =>
      { s with rows := s.rows ++ chunks.map (ChunkRow.mk job) }.jobTo job .done
    | _ => s
  | .failJob job retry =>
    match s.jobs job with
    | .absent => s
    | .done => s
    | _ => s.jobTo job (if retry then .queued else .done)

/-- The edit has begun to write the file and has not committed. -/
def EditPhase.Dirty : EditPhase → Prop
  | .opened _ | .wrote | .deleting _ => True
  | _ => False

/-- The job is queued or running. -/
def JobPhase.Pending : JobPhase → Prop
  | .queued | .chunked _ => True
  | _ => False

/-- No edit is in progress and all jobs have finished. -/
def Quiescent (s : FileStore) : Prop :=
  (∀ edit, s.edits edit = .idle ∨ s.edits edit = .done) ∧ ∀ job, ¬ (s.jobs job).Pending

/-- Once everything is done the chunks are those of the file, each once. -/
def Converged (s : FileStore) : Prop :=
  Quiescent s → (s.rows.map ChunkRow.chunk).Perm (fileChunks s.disk)

/-- A file that is not being edited or processed, with its chunks. -/
def FileStore.processed (disk : List UInt8) : FileStore where
  disk := disk
  rows := (fileChunks disk).map (ChunkRow.mk 0)
  nextJob := 1

/-- The chunks are deleted only when no job is queued or running and no other
edit is between its delete and its commit; an edit that has opened the file and
a job come to their ends. -/
def Serial (s : FileStore) : FileEvent → Prop
  | .deleteChunks edit =>
    s.edits edit = .wrote →
      (∀ job, ¬ (s.jobs job).Pending) ∧ ∀ other found, s.edits other ≠ .deleting found
  | .fail edit => ¬ (s.edits edit).Dirty
  | .failJob job retry => (s.jobs job).Pending → retry = true
  | _ => True

@[simp] theorem FileStore.editTo_edits (s : FileStore) (edit : Nat) (phase : EditPhase) :
    (s.editTo edit phase).edits edit = phase :=
  Function.update_self ..

theorem FileStore.editTo_edits_of_ne (s : FileStore) {edit other : Nat} (h : other ≠ edit)
    (phase : EditPhase) : (s.editTo edit phase).edits other = s.edits other :=
  Function.update_of_ne h ..

@[simp] theorem FileStore.jobTo_jobs (s : FileStore) (job : Nat) (phase : JobPhase) :
    (s.jobTo job phase).jobs job = phase :=
  Function.update_self ..

theorem FileStore.jobTo_jobs_of_ne (s : FileStore) {job other : Nat} (h : other ≠ job)
    (phase : JobPhase) : (s.jobTo job phase).jobs other = s.jobs other :=
  Function.update_of_ne h ..

/-! ## What serial steps keep -/

/-- A delete in progress has found all rows and is alone, and where no edit is
in the middle, either the chunks are there or one job is to insert them. -/
structure Settled (s : FileStore) : Prop where
  fresh : ∀ job, s.nextJob ≤ job → s.jobs job = .absent
  deleting : ∀ edit found, s.edits edit = .deleting found → found = s.rows ∧
    (∀ job, ¬ (s.jobs job).Pending) ∧
      ∀ other found', s.edits other = .deleting found' → other = edit
  clean : (∀ edit, ¬ (s.edits edit).Dirty) →
    ((∀ job, ¬ (s.jobs job).Pending) ∧ s.rows.map ChunkRow.chunk = fileChunks s.disk) ∨
    ∃ job, (∀ other, (s.jobs other).Pending → other = job) ∧ s.rows = [] ∧
      (s.jobs job = .queued ∨ s.jobs job = .chunked (fileChunks s.disk))

/-- An edit that moves to another phase does not begin to delete. -/
theorem deleting_of_editTo {s : FileStore} {edit other : Nat} {phase : EditPhase}
    {found : List ChunkRow} (hphase : ∀ found, phase ≠ .deleting found)
    (h : (s.editTo edit phase).edits other = .deleting found) : s.edits other = .deleting found := by
  by_cases heq : other = edit
  · subst heq
    rw [FileStore.editTo_edits] at h
    exact absurd h (hphase found)
  · rwa [FileStore.editTo_edits_of_ne _ heq] at h

/-- A job that is pending has been enqueued. -/
theorem Settled.lt_nextJob {s : FileStore} (h : Settled s) {job : Nat}
    (hpending : (s.jobs job).Pending) : job < s.nextJob := by
  by_contra hle
  rw [h.fresh job (by omega)] at hpending
  exact hpending

/-- A delete in progress is not disturbed by another edit. -/
theorem Settled.deleting_editTo {s : FileStore} (h : Settled s) {edit other : Nat} {phase : EditPhase}
    {found : List ChunkRow} (hphase : ∀ found, phase ≠ .deleting found)
    (hfound : (s.editTo edit phase).edits other = .deleting found) :
    found = s.rows ∧ (∀ job, ¬ (s.jobs job).Pending) ∧
      ∀ another found', (s.editTo edit phase).edits another = .deleting found' → another = other := by
  obtain ⟨hrows, hjobs, halone⟩ := h.deleting other found (deleting_of_editTo hphase hfound)
  refine ⟨hrows, hjobs, fun another found' hfound' => ?_⟩
  exact halone another found' (deleting_of_editTo hphase hfound')

/-- The jobs that are still to come are absent, whatever a job does. -/
theorem Settled.fresh_jobTo {s : FileStore} (h : Settled s) {job : Nat} (hlt : job < s.nextJob)
    (phase : JobPhase) {other : Nat} (hother : s.nextJob ≤ other) :
    (s.jobTo job phase).jobs other = .absent := by
  rw [FileStore.jobTo_jobs_of_ne _ (by omega)]
  exact h.fresh other hother

/-- An edit that has not opened the file, before and after. -/
theorem Settled.editTo {s : FileStore} (h : Settled s) {edit : Nat} {phase : EditPhase}
    (hbefore : ¬ (s.edits edit).Dirty) (hphase : ¬ phase.Dirty) :
    Settled (s.editTo edit phase) := by
  have hdeleting : ∀ found, phase ≠ .deleting found := by
    rintro found rfl
    exact hphase trivial
  refine ⟨h.fresh, ?_, ?_⟩
  · exact fun other found hfound => h.deleting_editTo hdeleting hfound
  · intro hclean
    refine h.clean fun other => ?_
    by_cases heq : other = edit
    · subst heq
      exact hbefore
    · have hdirty := hclean other
      rwa [FileStore.editTo_edits_of_ne _ heq] at hdirty

/-- An edit that opens or writes the file. -/
theorem Settled.write {s : FileStore} (h : Settled s) {edit : Nat} {phase : EditPhase}
    (disk : List UInt8) (hphase : phase.Dirty) (hdeleting : ∀ found, phase ≠ .deleting found) :
    Settled ({ s with disk := disk }.editTo edit phase) := by
  refine ⟨h.fresh, ?_, ?_⟩
  · exact fun other found hfound => h.deleting_editTo hdeleting hfound
  · intro hclean
    have hdirty := hclean edit
    rw [FileStore.editTo_edits] at hdirty
    exact absurd hphase hdirty

theorem Settled.deleteChunks {s : FileStore} (h : Settled s) {edit : Nat}
    (hjobs : ∀ job, ¬ (s.jobs job).Pending)
    (halone : ∀ other found, s.edits other ≠ .deleting found) :
    Settled (s.editTo edit (.deleting s.rows)) := by
  have hedit : ∀ {other found}, (s.editTo edit (.deleting s.rows)).edits other = .deleting found →
      other = edit := by
    intro other found hfound
    by_contra hne
    rw [FileStore.editTo_edits_of_ne _ hne] at hfound
    exact halone other found hfound
  refine ⟨h.fresh, ?_, ?_⟩
  · intro other found hfound
    obtain rfl := hedit hfound
    rw [FileStore.editTo_edits] at hfound
    exact ⟨(EditPhase.deleting.inj hfound).symm, hjobs, fun _ _ hfound' => hedit hfound'⟩
  · intro hclean
    have hdirty := hclean edit
    rw [FileStore.editTo_edits] at hdirty
    exact absurd trivial hdirty

theorem Settled.commit {s : FileStore} (h : Settled s) {edit : Nat} {found : List ChunkRow}
    (hfound : s.edits edit = .deleting found) : Settled (s.step (.commit edit)) := by
  obtain ⟨rfl, hjobs, halone⟩ := h.deleting edit found hfound
  have hstep : s.step (.commit edit) =
      ({ s with rows := [], nextJob := s.nextJob + 1 }.editTo edit .done).jobTo s.nextJob
        .queued := by
    unfold FileStore.step
    dsimp only
    rw [hfound]
    dsimp only
    rw [List.filter_eq_nil_iff.mpr (by simp)]
  rw [hstep]
  -- the edit was alone and no job was pending, so the new job is the only one
  have hpending : ∀ other, ((({ s with rows := [], nextJob := s.nextJob + 1 }.editTo edit
      .done).jobTo s.nextJob .queued).jobs other).Pending → other = s.nextJob := by
    intro other hother
    by_contra hne
    rw [FileStore.jobTo_jobs_of_ne _ hne] at hother
    exact hjobs other hother
  refine ⟨?_, ?_, ?_⟩
  · intro job hjob
    rw [FileStore.jobTo_jobs_of_ne _ (by change s.nextJob + 1 ≤ job at hjob; omega)]
    exact h.fresh job (by change s.nextJob + 1 ≤ job at hjob; omega)
  · -- no other edit is deleting
    intro other found' hother
    have hbefore : s.edits other = .deleting found' :=
      deleting_of_editTo (show ∀ found, EditPhase.done ≠ .deleting found by simp) hother
    obtain rfl := halone other found' hbefore
    rw [FileStore.jobTo, FileStore.editTo_edits] at hother
    exact absurd hother (by simp)
  · intro _
    exact .inr ⟨s.nextJob, hpending, rfl, .inl (FileStore.jobTo_jobs ..)⟩

/-- No edit is deleting rows while a job is pending. -/
theorem Settled.not_deleting {s : FileStore} (h : Settled s) {job : Nat}
    (hbefore : (s.jobs job).Pending) (edit : Nat) (found : List ChunkRow) :
    s.edits edit ≠ .deleting found :=
  fun hfound => (h.deleting edit found hfound).2.1 job hbefore

/-- A job that goes on, or back to the queue. -/
theorem Settled.jobTo {s : FileStore} (h : Settled s) {job : Nat} {phase : JobPhase}
    (hbefore : (s.jobs job).Pending)
    (hphase : phase = .queued ∨ phase = .chunked (fileChunks s.disk)) :
    Settled (s.jobTo job phase) := by
  have hlt := h.lt_nextJob hbefore
  refine ⟨?_, ?_, ?_⟩
  · exact fun other hother => h.fresh_jobTo hlt _ hother
  · exact fun edit found hfound => absurd hfound (h.not_deleting hbefore edit found)
  · intro hclean
    rcases h.clean hclean with ⟨hjobs, _⟩ | ⟨job', honly, hrows, _⟩
    · exact absurd hbefore (hjobs job)
    · obtain rfl := honly job hbefore
      refine .inr ⟨job, ?_, hrows, ?_⟩
      · intro other hother
        by_contra hne
        rw [FileStore.jobTo_jobs_of_ne _ hne] at hother
        exact hne (honly other hother)
      · rw [FileStore.jobTo_jobs]
        exact hphase

theorem Settled.insert {s : FileStore} (h : Settled s) {job : Nat} {chunks : List Chunk}
    (hchunks : s.jobs job = .chunked chunks) :
    Settled ({ s with rows := s.rows ++ chunks.map (ChunkRow.mk job) }.jobTo job .done) := by
  have hbefore : (s.jobs job).Pending := by rw [hchunks]; trivial
  have hlt := h.lt_nextJob hbefore
  refine ⟨?_, ?_, ?_⟩
  · exact fun other hother => h.fresh_jobTo hlt _ hother
  · exact fun edit found hfound => absurd hfound (h.not_deleting hbefore edit found)
  · intro hclean
    rcases h.clean hclean with ⟨hjobs, _⟩ | ⟨job', honly, hrows, hphase⟩
    · exact absurd hbefore (hjobs job)
    · obtain rfl := honly job hbefore
      have hfile : chunks = fileChunks s.disk := by
        rw [hchunks] at hphase
        simpa using hphase
      refine .inl ⟨?_, ?_⟩
      · intro other hother
        by_cases heq : other = job
        · subst heq
          rw [FileStore.jobTo_jobs] at hother
          exact hother
        · rw [FileStore.jobTo_jobs_of_ne _ heq] at hother
          exact heq (honly other hother)
      · show (s.rows ++ chunks.map (ChunkRow.mk job)).map ChunkRow.chunk = fileChunks s.disk
        rw [hrows, List.nil_append, List.map_map, hfile]
        exact List.map_id _

theorem settled_step (s : FileStore) (e : FileEvent) (h : Settled s) (hserial : Serial s e) :
    Settled (s.step e) := by
  cases e with
  | begin edit operation =>
    unfold FileStore.step
    dsimp only
    split
    next hidle =>
      -- an edit that begins has not yet written to the file
      have hbefore : ¬ (s.edits edit).Dirty := by rw [hidle]; exact id
      split
      next => exact h.editTo hbefore id
      next => exact h.editTo hbefore id
    next => exact h
  | openFile edit =>
    unfold FileStore.step
    dsimp only
    split
    next => exact h.write _ trivial (by simp)
    next => exact h
  | put edit =>
    unfold FileStore.step
    dsimp only
    split
    next => exact h.write _ trivial (by simp)
    next => exact h
  | deleteChunks edit =>
    unfold FileStore.step
    dsimp only
    split
    next hwrote => exact h.deleteChunks (hserial hwrote).1 (hserial hwrote).2
    next => exact h
  | commit edit =>
    cases hedit : s.edits edit with
    | deleting found => exact h.commit hedit
    | _ =>
      unfold FileStore.step
      dsimp only
      rw [hedit]
      exact h
  | fail edit =>
    unfold FileStore.step
    dsimp only
    split
    next => exact h
    next => exact h.editTo hserial id
  | readFile job =>
    unfold FileStore.step
    dsimp only
    split
    next hqueued => exact h.jobTo (by rw [hqueued]; trivial) (.inr rfl)
    next => exact h
  | insert job =>
    unfold FileStore.step
    dsimp only
    split
    next hchunked => exact h.insert hchunked
    next => exact h
  | failJob job retry =>
    unfold FileStore.step
    dsimp only
    split
    next => exact h
    next => exact h
    -- a job that is there and not done is pending, and only one that may be run again fails
    next habsent hdone =>
      have hpending : (s.jobs job).Pending := by
        cases hjob : s.jobs job with
        | absent => exact absurd hjob habsent
        | done => exact absurd hjob hdone
        | queued => trivial
        | chunked _ => trivial
      rw [hserial hpending]
      exact h.jobTo hpending (.inl rfl)

theorem settled_processed (disk : List UInt8) : Settled (.processed disk) := by
  refine ⟨fun _ _ => rfl, fun _ _ h => absurd h (by simp [FileStore.processed]), fun _ => .inl ?_⟩
  refine ⟨fun _ => id, ?_⟩
  show ((fileChunks disk).map (ChunkRow.mk 0)).map ChunkRow.chunk = fileChunks disk
  rw [List.map_map]
  exact List.map_id _

theorem Settled.converged {s : FileStore} (h : Settled s) : Converged s := by
  rintro ⟨hedits, hjobs⟩
  have hclean : ∀ edit, ¬ (s.edits edit).Dirty := by
    intro edit
    rcases hedits edit with hedit | hedit
    · rw [hedit]
      exact id
    · rw [hedit]
      exact id
  rcases h.clean hclean with ⟨_, hrows⟩ | ⟨job, _, _, hphase⟩
  · exact .of_eq hrows
  · refine absurd ?_ (hjobs job)
    rcases hphase with hphase | hphase
    · rw [hphase]
      trivial
    · rw [hphase]
      trivial

/-- In a run of serial steps the chunks converge to the file. -/
theorem converged_of_serial {disk : List UInt8} {events : List FileEvent}
    (h : Throughout FileStore.step Serial (.processed disk) events) :
    Converged (run FileStore.step (.processed disk) events) :=
  (run_invariant Settled settled_step (settled_processed disk) h).converged

/-- A write, and its job, of a file that is replaced. -/
def oneEdit : List FileEvent :=
  [.begin 0 (.write "a".toList), .openFile 0, .put 0, .deleteChunks 0, .commit 0, .readFile 1,
    .insert 1]

theorem oneEdit_converged :
    Converged (run FileStore.step (.processed (utf8 "b".toList)) oneEdit) := by
  refine converged_of_serial ⟨trivial, trivial, trivial, ?_, trivial, trivial, trivial, trivial⟩
  intro _
  refine ⟨fun _ => id, fun other found => ?_⟩
  by_cases hother : other = 0
  · rw [hother]
    simp [FileStore.step, FileStore.editTo, FileEdit.plan, FileStore.processed]
  · simp [FileStore.step, FileStore.editTo, FileEdit.plan, FileStore.processed, hother]

/-! ## Two jobs -/

/-- A job that is still queued when an edit deletes the chunks inserts them a
second time. -/
theorem doubled_of_queued {s : FileStore} {edit job : Nat} (hwrote : s.edits edit = .wrote)
    (hedits : ∀ other, other ≠ edit → s.edits other = .idle ∨ s.edits other = .done)
    (hqueued : s.jobs job = .queued) (hjobs : ∀ other, other ≠ job → ¬ (s.jobs other).Pending)
    (hfresh : job < s.nextJob) (hchunks : fileChunks s.disk ≠ []) :
    ¬ Converged (run FileStore.step s [.deleteChunks edit, .commit edit, .readFile job, .insert job,
      .readFile s.nextJob, .insert s.nextJob]) := by
  have hne : s.nextJob ≠ job := by omega
  have hrun : run FileStore.step s [.deleteChunks edit, .commit edit, .readFile job, .insert job,
      .readFile s.nextJob, .insert s.nextJob] =
      { disk := s.disk
        rows := (fileChunks s.disk).map (ChunkRow.mk job) ++
          (fileChunks s.disk).map (ChunkRow.mk s.nextJob)
        edits := Function.update (Function.update s.edits edit (.deleting s.rows)) edit .done
        jobs := Function.update (Function.update (Function.update (Function.update (Function.update
          s.jobs s.nextJob .queued) job (.chunked (fileChunks s.disk))) job .done) s.nextJob
          (.chunked (fileChunks s.disk))) s.nextJob .done
        nextJob := s.nextJob + 1 } := by
    simp [run, FileStore.step, FileStore.editTo, FileStore.jobTo, hwrote, hqueued, hne, hne.symm]
  rw [hrun]
  intro hconverged
  -- both jobs have inserted all chunks, twice as many as the file has
  have hlength := (hconverged ⟨?_, ?_⟩).length_eq
  · change _ = (fileChunks s.disk).length at hlength
    rw [List.length_map, List.length_append, List.length_map, List.length_map] at hlength
    exact hchunks (List.eq_nil_of_length_eq_zero (by omega))
  · intro other
    by_cases heq : other = edit
    · rw [heq]
      exact .inr (Function.update_self ..)
    · dsimp only
      rw [Function.update_of_ne heq, Function.update_of_ne heq]
      exact hedits other heq
  · intro other
    dsimp only
    by_cases hnext : other = s.nextJob
    · rw [hnext, Function.update_self]
      exact id
    · rw [Function.update_of_ne hnext, Function.update_of_ne hnext]
      by_cases hjob : other = job
      · rw [hjob, Function.update_self]
        exact id
      · rw [Function.update_of_ne hjob, Function.update_of_ne hjob, Function.update_of_ne hnext]
        exact hjobs other hjob

/-- Two writes, the first one's job still in the queue. -/
def twoWrites : List FileEvent :=
  [.begin 0 (.write "a".toList), .openFile 0, .put 0, .deleteChunks 0, .commit 0,
    .begin 1 (.write "b".toList), .openFile 1, .put 1]

theorem twoJobs_doubled :
    ¬ ∀ disk events, Converged (run FileStore.step (.processed disk) events) := by
  intro h
  have hedits : ∀ other, other ≠ 1 → (run FileStore.step (.processed []) twoWrites).edits other =
      .idle ∨ (run FileStore.step (.processed []) twoWrites).edits other = .done
    | 0, _ => .inr rfl
    | 1, hne => absurd rfl hne
    | _ + 2, _ => .inl rfl
  have hjobs : ∀ other, other ≠ 1 →
      ¬ ((run FileStore.step (.processed []) twoWrites).jobs other).Pending
    | 0, _ => id
    | 1, hne => absurd rfl hne
    | _ + 2, _ => id
  have hchunks : fileChunks (run FileStore.step (.processed []) twoWrites).disk ≠ [] := by
    decide
  have hdoubled := doubled_of_queued rfl hedits rfl hjobs (by decide) hchunks
  rw [← run_append] at hdoubled
  exact hdoubled (h [] _)

end Eidetic.Files
