import Eidetic.Jobs.Schedules
import Eidetic.Memory.Lock

/-!
# One run of a scheduled prompt

`execute_scheduled_prompt` and the job that processes its output file. The job
is started before the commit, and the handler of all exceptions marks the run
as failed and commits, also when the file is already flushed or the run is
already committed as a success. So what others see of the run is consistent
exactly as long as the handler has no flushed file to commit and the job looks
for the file after the commit (`consistent_iff`).

The run is a small machine. Its phases are the statements of
`execute_scheduled_prompt` that can raise, and the session keeps what is added
and flushed until a commit; an exception in any phase goes to the handler, which
sets the status and commits whatever the session has. The job is a second party
that looks for the file once, at any moment after it was started.

The invariant is `Execution.Inv`: what others see is consistent, and the run is
where its phase says, with nothing visible before the first commit
(`Execution.Fresh`). Only three steps make something visible or look at it: the
commit (`commit_inv`), the handler (`handle_inv`) and the job (`job_inv`); the
others are `step_hidden`. `InOrder` is the condition on these three, and each is
consistent exactly when it meets it.
-/

namespace Eidetic.Jobs

open Eidetic.Lib Eidetic.Py
open Eidetic.Memory (Answer)

/-! ## The rows -/

inductive RunStatus
  | running
  | success
  | error
deriving DecidableEq

/-- A row of `scheduled_prompt_runs`. -/
structure RunRow where
  status : RunStatus := .running
  completedAt : Option Nat := none
  outputFileId : Option Uuid := none
  error : Option Text := none

/-- What `save_text` returns. -/
structure StoredText where
  storagePath : Text
  sizeBytes : Nat
  sha256 : Text

/-- The row of `files` for an output. -/
structure OutputFile where
  id : Uuid
  userId : Nat
  filename : Text
  mimeType : Text
  sizeBytes : Nat
  storagePath : Text
  uploadStatus : Text
  sha256Hash : Text

/-- What a run writes: its own row, the times of its schedule and the file. -/
structure RunTables where
  run : RunRow := {}
  lastRunAt : Option Nat := none
  nextRunAt : Option Nat := none
  file : Option OutputFile := none

/-! ## The run and the job -/

/-- What the run does next. -/
inductive RunPhase
  | calling
  | saving (content : Text)
  | flushing (stored : StoredText) (filename : Text)
  /-- From `create_task` to the commit, where nothing else can run. -/
  | scheduling
  | committing
  | notifying
  /-- In the handler, before its commit. -/
  | handling (error : Text)
  | finished

/-- The job: whether it is started, and whether it has found the file. -/
inductive JobState
  | idle
  | started
  | ran (found : Bool)
deriving DecidableEq

/-- What others see, what the session of the run has, and whether it refuses
further commits. `succeeded` remembers a commit as success; it is no part of the
code. -/
structure Execution where
  phase : RunPhase := .calling
  committed : RunTables
  session : RunTables
  broken : Bool := false
  job : JobState := .idle
  succeeded : Bool := false

/-- The next thing that happens; an operation that raises gives the text of its
exception. An event that is not next changes nothing. -/
inductive RunEvent
  | nim (result : Except Text Text)
  | save (result : Except Text StoredText) (stamp : Text)
  | flush (result : Except Text Uuid)
  /-- The assignments and `croniter`. -/
  | schedule (now : Nat) (next : Except Text Nat)
  | commit (answer : Answer) (error : Text)
  | notify (result : Except Text Unit)
  | handle (now : Nat) (answer : Answer)
  /-- `db.get(File, file_id)` of the job. -/
  | job

/-- `f"{s.name}_{ts}.txt".replace(" ", "_")`. -/
def outputFilename (name stamp : Text) : Text :=
  (name ++ "_".toList ++ stamp ++ ".txt".toList).map fun c => if c = ' ' then '_' else c

def outputFile (s : ScheduledPrompt) (stored : StoredText) (filename : Text) (id : Uuid) :
    OutputFile where
  id := id
  userId := s.userId
  filename := filename
  mimeType := "text/plain".toList
  sizeBytes := stored.sizeBytes
  storagePath := stored.storagePath
  uploadStatus := "uploaded".toList
  sha256Hash := stored.sha256

/-- The session's rows become visible. -/
def Execution.visible (x : Execution) : Execution :=
  { x with
    committed := x.session
    succeeded := x.succeeded || x.session.run.status = .success }

/-- The commit of the `try` block. A session whose commit failed takes no other. -/
def Execution.commit (x : Execution) (error : Text) : Answer → Execution
  | .reply => { x.visible with phase := .notifying }
  | .lost => { x.visible with broken := true, phase := .handling error }
  | .unreached => { x with broken := true, phase := .handling error }

/-- The handler. -/
def Execution.handle (x : Execution) (error : Text) (now : Nat) (answer : Answer) : Execution :=
  let run : RunRow := { x.session.run with
    status := .error, error := some (error.take 2000), completedAt := some now }
  let x : Execution := { x with session := { x.session with run := run }, phase := .finished }
  if x.broken ∨ answer = .unreached then x else x.visible

/-- The assignments before the commit, up to the one that raises. -/
def Execution.assign (x : Execution) (now : Nat) (next : Except Text Nat) : Execution :=
  let run : RunRow := { x.session.run with
    status := .success, completedAt := some now, outputFileId := x.session.file.map OutputFile.id }
  let tables : RunTables := { x.session with run := run, lastRunAt := some now }
  match next with
  | .ok at' => { x with session := { tables with nextRunAt := some at' }, phase := .committing }
  | .error e => { x with session := tables, phase := .handling e }

def executeStep (s : ScheduledPrompt) (x : Execution) (event : RunEvent) : Execution :=
  match event, x.phase with
  | .nim (.ok content), .calling => { x with phase := .saving content }
  | .nim (.error e), .calling => { x with phase := .handling e }
  | .save (.ok stored) stamp, .saving _ =>
    { x with phase := .flushing stored (outputFilename s.name stamp) }
  | .save (.error e) _, .saving _ => { x with phase := .handling e }
  | .flush (.ok id), .flushing stored filename =>
    { x with
      session := { x.session with file := some (outputFile s stored filename id) }
      job := .started
      phase := .scheduling }
  -- a session whose flush failed takes no commit until it is rolled back
  | .flush (.error e), .flushing _ _ => { x with broken := true, phase := .handling e }
  | .schedule now next, .scheduling => x.assign now next
  | .commit answer e, .committing => x.commit e answer
  | .notify (.ok ()), .notifying => { x with phase := .finished }
  | .notify (.error e), .notifying => { x with phase := .handling e }
  | .handle now answer, .handling e => x.handle e now answer
  | .job, .scheduling => x
  | .job, _ =>
    if x.job = .started then { x with job := .ran x.committed.file.isSome } else x
  | _, _ => x

/-- A run that has been created, and nothing else. -/
def Execution.start (lastRunAt nextRunAt : Option Nat) : Execution :=
  { committed := { lastRunAt := lastRunAt, nextRunAt := nextRunAt }
    session := { lastRunAt := lastRunAt, nextRunAt := nextRunAt } }

/-! ## What others see -/

/-- A success stays one, it is one exactly when its file is there, and a job
that has run for a file that is there has found it. -/
structure Execution.Consistent (x : Execution) : Prop where
  final : x.succeeded = true → x.committed.run.status = .success
  success : x.committed.run.status = .success ↔ x.committed.file.isSome = true
  found : ∀ found, x.job = .ran found → x.committed.file.isSome = true → found = true

/-- The commit takes effect before the job looks for the file, and the handler
commits no file. -/
def InOrder (x : Execution) : RunEvent → Prop
  | .commit answer _ =>
    match x.phase with
    | .committing => answer ≠ .unreached → x.job = .started
    | _ => True
  | .handle _ answer =>
    match x.phase with
    | .handling _ => x.broken = false → answer ≠ .unreached → x.session.file = none
    | _ => True
  | _ => True

/-! ## Where a run can be -/

/-- Nothing of the run is visible yet. -/
structure Execution.Fresh (x : Execution) : Prop where
  status : x.committed.run.status = .running
  file : x.committed.file = none
  unfinished : x.succeeded = false

/-- What is known at each phase of a run that has been in order. -/
def Execution.AtPhase (x : Execution) : RunPhase → Prop
  | .calling | .saving _ | .flushing _ _ =>
    x.Fresh ∧ x.session.file = none ∧ x.job = .idle
  | .scheduling => x.Fresh ∧ x.session.file.isSome = true ∧ x.job = .started
  | .committing =>
    x.Fresh ∧ x.session.file.isSome = true ∧ x.session.run.status = .success ∧
      (x.job = .started ∨ x.job = .ran false)
  | .notifying => x.session.file.isSome = true
  | .handling _ => x.broken = false → x.session.file = none → x.Fresh
  | .finished => True

def Execution.Inv (x : Execution) : Prop := x.Consistent ∧ x.AtPhase x.phase

theorem Execution.Fresh.congr {x y : Execution} (h : x.Fresh)
    (hcommitted : y.committed = x.committed) (hsucceeded : y.succeeded = x.succeeded) : y.Fresh where
  status := hcommitted ▸ h.status
  file := hcommitted ▸ h.file
  unfinished := hsucceeded ▸ h.unfinished

/-- No success and no file. -/
theorem consistent_of_none {x : Execution} (hstatus : x.committed.run.status ≠ .success)
    (hfile : x.committed.file = none) (hunfinished : x.succeeded = false) : x.Consistent where
  final hsucceeded := absurd (hsucceeded.symm.trans hunfinished) (by simp)
  success := by
    rw [hfile]
    exact iff_of_false hstatus Bool.false_ne_true
  found found _ hsome := by
    rw [hfile] at hsome
    exact absurd hsome Bool.false_ne_true

theorem Execution.Fresh.consistent {x : Execution} (h : x.Fresh) : x.Consistent := by
  refine consistent_of_none ?_ h.file h.unfinished
  rw [h.status]
  decide

theorem inv_start (lastRunAt nextRunAt : Option Nat) : (Execution.start lastRunAt nextRunAt).Inv := by
  have hfresh : (Execution.start lastRunAt nextRunAt).Fresh := ⟨rfl, rfl, rfl⟩
  exact ⟨hfresh.consistent, hfresh, rfl, rfl⟩

/-! ## The commits -/

/-- A commit that takes effect makes the run a success with its file. It stays
consistent when the job has not run. -/
theorem consistent_visible {x : Execution} (hfile : x.session.file.isSome = true)
    (hstatus : x.session.run.status = .success) (hjob : x.job = .started ∨ x.job = .ran false) :
    x.visible.Consistent ↔ x.job = .started := by
  constructor
  · intro h
    refine hjob.resolve_right fun hran => ?_
    exact absurd (h.found false hran hfile) Bool.false_ne_true
  · intro hstarted
    refine ⟨fun _ => hstatus, iff_of_true hstatus hfile, fun found hran => ?_⟩
    cases hstarted.symm.trans hran

theorem Execution.Consistent.congr {x y : Execution} (h : x.Consistent)
    (hcommitted : y.committed = x.committed) (hsucceeded : y.succeeded = x.succeeded)
    (hjob : y.job = x.job) : y.Consistent := by
  obtain ⟨hfinal, hsuccess, hfound⟩ := h
  rw [← hcommitted] at hfinal hsuccess hfound
  rw [← hsucceeded] at hfinal
  rw [← hjob] at hfound
  exact ⟨hfinal, hsuccess, hfound⟩

/-- The commit of the `try` block. -/
theorem commit_inv {x : Execution} (h : x.AtPhase .committing) (error : Text) (answer : Answer) :
    ((x.commit error answer).Consistent ↔ (answer ≠ .unreached → x.job = .started)) ∧
      ((x.commit error answer).Consistent → (x.commit error answer).Inv) := by
  obtain ⟨hfresh, hfile, hstatus, hjob⟩ := h
  have hvisible := consistent_visible hfile hstatus hjob
  cases answer with
  | reply =>
    have hiff : (x.commit error .reply).Consistent ↔ x.job = .started :=
      ⟨fun hc => hvisible.mp (hc.congr rfl rfl rfl), fun hj => (hvisible.mpr hj).congr rfl rfl rfl⟩
    refine ⟨hiff.trans ⟨fun hj _ => hj, fun hj => hj (by decide)⟩, fun hc => ⟨hc, hfile⟩⟩
  | lost =>
    have hiff : (x.commit error .lost).Consistent ↔ x.job = .started :=
      ⟨fun hc => hvisible.mp (hc.congr rfl rfl rfl), fun hj => (hvisible.mpr hj).congr rfl rfl rfl⟩
    refine ⟨hiff.trans ⟨fun hj _ => hj, fun hj => hj (by decide)⟩, fun hc => ⟨hc, ?_⟩⟩
    exact fun hbroken => absurd hbroken (by simp [Execution.commit])
  | unreached =>
    refine ⟨iff_of_true (hfresh.consistent.congr rfl rfl rfl) fun hne => absurd rfl hne, ?_⟩
    exact fun hc => ⟨hc, fun hbroken => absurd hbroken (by simp [Execution.commit])⟩

/-- The handler. -/
theorem handle_inv {x : Execution} (hx : x.Consistent) {error : Text}
    (h : x.AtPhase (.handling error)) (now : Nat) (answer : Answer) :
    ((x.handle error now answer).Consistent ↔
        (x.broken = false → answer ≠ .unreached → x.session.file = none)) ∧
      ((x.handle error now answer).Consistent → (x.handle error now answer).Inv) := by
  have hfinished : (x.handle error now answer).phase = .finished := by
    unfold Execution.handle
    dsimp only
    split
    next => rfl
    next => rfl
  refine ⟨?_, fun hc => ⟨hc, by rw [hfinished]; exact trivial⟩⟩
  unfold Execution.handle
  dsimp only
  split
  next hno =>
    refine iff_of_true (hx.congr rfl rfl rfl) fun hbroken hanswer => ?_
    rcases hno with hb | ha
    · exact absurd (hb.symm.trans hbroken) (by decide)
    · exact absurd ha hanswer
  next hyes =>
    obtain ⟨hb, ha⟩ := not_or.mp hyes
    have hbroken : x.broken = false := Bool.eq_false_iff.mpr hb
    constructor
    · intro hc _ _
      have hsuccess := hc.success
      cases hfile : x.session.file with
      | none => rfl
      | some f =>
        -- the file is visible, and the run is an error
        have hsome : x.session.file.isSome = true := by
          rw [hfile]
          rfl
        have herror := hsuccess.mpr hsome
        cases herror
    · intro hfile
      have hnone := hfile hbroken ha
      obtain ⟨-, -, hunfinished⟩ := h hbroken hnone
      refine consistent_of_none (fun heq => ?_) hnone ?_
      · cases heq
      · show (x.succeeded || decide (RunStatus.error = .success)) = false
        rw [hunfinished]
        rfl

/-! ## One step -/

/-- A step that makes nothing visible and does not run the job. -/
theorem step_hidden {x y : Execution} {P : Prop} (hx : x.Consistent) (hP : P)
    (hcommitted : y.committed = x.committed) (hsucceeded : y.succeeded = x.succeeded)
    (hjob : y.job = x.job) (hphase : y.AtPhase y.phase) :
    (y.Consistent ↔ P) ∧ (y.Consistent → y.Inv) :=
  ⟨iff_of_true (hx.congr hcommitted hsucceeded hjob) hP, fun hc => ⟨hc, hphase⟩⟩

/-- The job finds what is committed. -/
theorem job_inv {x : Execution} (hx : x.Inv) (hphase : x.phase ≠ .scheduling)
    (hjob : x.job = .started) :
    ({ x with job := .ran x.committed.file.isSome } : Execution).Inv := by
  obtain ⟨hconsistent, hat⟩ := hx
  refine ⟨⟨hconsistent.final, hconsistent.success, fun found hran hfile => ?_⟩, ?_⟩
  · exact (JobState.ran.inj hran).symm.trans hfile
  · show Execution.AtPhase _ x.phase
    cases hp : x.phase with
    | calling =>
      rw [hp] at hat
      cases hjob.symm.trans hat.2.2
    | saving content =>
      rw [hp] at hat
      cases hjob.symm.trans hat.2.2
    | flushing stored filename =>
      rw [hp] at hat
      cases hjob.symm.trans hat.2.2
    | scheduling => exact absurd hp hphase
    | committing =>
      rw [hp] at hat
      obtain ⟨hfresh, hfile, hstatus, -⟩ := hat
      refine ⟨hfresh.congr rfl rfl, hfile, hstatus, Or.inr ?_⟩
      show JobState.ran x.committed.file.isSome = _
      rw [hfresh.file]
      rfl
    | notifying =>
      rw [hp] at hat
      exact hat
    | handling e =>
      rw [hp] at hat
      exact fun hbroken hfile => (hat hbroken hfile).congr rfl rfl
    | finished => exact trivial

/-- Only the two commits can be out of order. -/
theorem inOrder_of_other {x : Execution} {event : RunEvent}
    (hcommit : ∀ answer e, event = .commit answer e → x.phase = .committing → False)
    (hhandle : ∀ now answer e, event = .handle now answer → x.phase = .handling e → False) :
    InOrder x event := by
  cases event with
  | commit answer e =>
    dsimp only [InOrder]
    split
    next hphase => exact (hcommit _ _ rfl hphase).elim
    next => exact trivial
  | handle now answer =>
    dsimp only [InOrder]
    split
    next hphase => exact (hhandle _ _ _ rfl hphase).elim
    next => exact trivial
  | nim result => exact trivial
  | save result stamp => exact trivial
  | flush result => exact trivial
  | schedule now next => exact trivial
  | notify result => exact trivial
  | job => exact trivial

/-- A step leaves what others see consistent exactly when it is in order. -/
theorem executeStep_inv (s : ScheduledPrompt) (x : Execution) (event : RunEvent) (hx : x.Inv) :
    ((executeStep s x event).Consistent ↔ InOrder x event) ∧
      ((executeStep s x event).Consistent → (executeStep s x event).Inv) := by
  have hinv := hx
  obtain ⟨hconsistent, hat⟩ := hx
  unfold executeStep
  split
  next content hphase =>
    rw [hphase] at hat
    exact step_hidden hconsistent trivial rfl rfl rfl
      ⟨hat.1.congr rfl rfl, hat.2⟩
  next e hphase =>
    rw [hphase] at hat
    exact step_hidden hconsistent trivial rfl rfl rfl
      fun _ _ => hat.1.congr rfl rfl
  next stored stamp content hphase =>
    rw [hphase] at hat
    exact step_hidden hconsistent trivial rfl rfl rfl
      ⟨hat.1.congr rfl rfl, hat.2⟩
  next e stamp content hphase =>
    rw [hphase] at hat
    exact step_hidden hconsistent trivial rfl rfl rfl
      fun _ _ => hat.1.congr rfl rfl
  next id stored filename hphase =>
    -- the job starts, and nothing is visible yet
    rw [hphase] at hat
    have hfresh : Execution.Fresh
        { x with
          session := { x.session with file := some (outputFile s stored filename id) }
          job := .started
          phase := .scheduling } := hat.1.congr rfl rfl
    exact ⟨iff_of_true hfresh.consistent trivial, fun hc => ⟨hc, hfresh, rfl, rfl⟩⟩
  next e stored filename hphase =>
    exact step_hidden hconsistent trivial rfl rfl rfl fun hbroken => by cases hbroken
  next now next' hphase =>
    rw [hphase] at hat
    obtain ⟨hfresh, hfile, hjob⟩ := hat
    unfold Execution.assign
    split
    next =>
      exact step_hidden hconsistent trivial rfl rfl rfl
        ⟨hfresh.congr rfl rfl, hfile, rfl, Or.inl hjob⟩
    next =>
      exact step_hidden hconsistent trivial rfl rfl rfl
        fun _ _ => hfresh.congr rfl rfl
  next answer e hphase =>
    rw [hphase] at hat
    unfold InOrder
    rw [hphase]
    exact commit_inv hat e answer
  next hphase => exact step_hidden hconsistent trivial rfl rfl rfl trivial
  next e hphase =>
    rw [hphase] at hat
    exact step_hidden hconsistent trivial rfl rfl rfl
      fun _ hnone => absurd (hat.symm.trans (congrArg Option.isSome hnone)) (by decide)
  next now answer e hphase =>
    rw [hphase] at hat
    unfold InOrder
    rw [hphase]
    exact handle_inv hconsistent hat now answer
  next hphase => exact step_hidden hconsistent trivial rfl rfl rfl hat
  next hphase =>
    split
    next hjob =>
      have hnext := job_inv hinv hphase hjob
      exact ⟨iff_of_true hnext.1 trivial, fun _ => hnext⟩
    next => exact step_hidden hconsistent trivial rfl rfl rfl hat
  next hcommit _ _ hhandle _ =>
    exact step_hidden hconsistent (inOrder_of_other hcommit hhandle) rfl rfl rfl hat

/-! ## Runs -/

/-- At every moment of a run what others see is consistent, exactly when every
step is in order. -/
theorem consistent_iff (s : ScheduledPrompt) (lastRunAt nextRunAt : Option Nat)
    (events : List RunEvent) :
    (∀ before after, events = before ++ after →
        (run (executeStep s) (Execution.start lastRunAt nextRunAt) before).Consistent) ↔
      Throughout (executeStep s) InOrder (Execution.start lastRunAt nextRunAt) events := by
  refine along_iff (fun x hx => hx.1) (fun x event hx horder => ?_) (fun x event hx hc => ?_)
    (inv_start lastRunAt nextRunAt) events
  · obtain ⟨hiff, hkeep⟩ := executeStep_inv s x event hx
    exact hkeep (hiff.mpr horder)
  · exact (executeStep_inv s x event hx).1.mp hc

/-- A schedule, and a run of it that is answered and stored. -/
def dailyNews : ScheduledPrompt where
  id := someUuid
  userId := 1
  name := "News".toList
  prompt := "What is new?".toList
  cronExpr := "0 0 * * *".toList
  modelOverride := none
  isActive := true
  nextRunAt := none

def untilCommit : List RunEvent :=
  [.nim (.ok "Nothing.".toList), .save (.ok ⟨"a.txt".toList, 8, []⟩) "1".toList,
    .flush (.ok someUuid), .schedule 1 (.ok 2), .commit .reply []]

/-- After a success whose notice cannot be queued, the run is an error. -/
theorem success_becomes_error :
    ¬ ∀ (s : ScheduledPrompt) (lastRunAt nextRunAt : Option Nat) (events : List RunEvent),
      (run (executeStep s) (Execution.start lastRunAt nextRunAt) events).Consistent := by
  intro h
  have hbad := h dailyNews none none
    (untilCommit ++ [.notify (.error "Redis".toList), .handle 3 .reply])
  cases hbad.final rfl

end Eidetic.Jobs
