import Eidetic.Lib.Rows
import Eidetic.Lib.Run
import Eidetic.Py.Uuid

/-!
# Schedules and the jobs of the scheduler

`sync_schedules` compares the active schedules with the jobs by their ids: it
removes the jobs that no active schedule has and adds those that are missing.
The job of a schedule that stays active is left as it is, so after a sync the
jobs are those of the schedules exactly when every job that was there already
has the trigger of the expression that its schedule has now (`agree_iff`).

A sync is two loops over lists of ids, and after them the job of an id is known
from the rows and from the job that was there (`find_sync_active`,
`find_sync_other`). Ids are texts: those of schedules are uuids, which do not
begin with an underscore, so they are never internal (`str_not_internal`), and
two schedules have different ones. An expression that the scheduler cannot read
adds no job.

`Agree` is the property of one sync, and `agree_sync_iff` says when it holds;
`UpToDate` is the same of every active schedule that has a job already. Over
histories nothing has to be kept: the theorem is about the sync at each moment
of any history, of any rows and any jobs that there may be.
-/

namespace Eidetic.Jobs

open Eidetic.Lib Eidetic.Py

/-- What `croniter`, `CronTrigger.from_crontab` and `str.lower` answer; `none`
where they raise. -/
structure Cron (τ : Type) where
  isValid : Text → Bool
  getNext : Text → Nat → Option Nat
  fromCrontab : Text → Option τ
  lower : Text → Text

/-! ## The schedules -/

structure ScheduledPrompt where
  id : Uuid
  userId : Nat
  name : Text
  prompt : Text
  cronExpr : Text
  modelOverride : Option Text
  isActive : Bool
  nextRunAt : Option Nat
deriving DecidableEq

abbrev Schedules := Rows ScheduledPrompt.id

/-- `_SCHEDULE_ALIASES`. -/
def scheduleAliases : List (Text × Text) :=
  [("daily".toList, "0 0 * * *".toList), ("weekly".toList, "0 0 * * 0".toList),
    ("monthly".toList, "0 0 1 * *".toList)]

variable {τ : Type}

def resolveSchedule (cron : Cron τ) (schedule : Text) : Text :=
  (scheduleAliases.lookup (strip (cron.lower schedule))).getD schedule

/-- `validate_schedule`, after the length is checked. -/
def validateSchedule (cron : Cron τ) (v : Text) : Option Text :=
  if v.length = 0 ∨ 100 < v.length then none
  else
    let resolved := resolveSchedule cron v
    if cron.isValid resolved then some resolved else none

def validName (name : Text) : Bool := 1 ≤ name.length && name.length ≤ 100

structure ScheduleCreate where
  name : Text
  prompt : Text
  schedule : Text
  modelOverride : Option Text := none

/-- A field that is not set is `none`, one that is set to null is `some none`. -/
structure SchedulePatch where
  name : Option (Option Text) := none
  prompt : Option (Option Text) := none
  schedule : Option (Option Text) := none
  modelOverride : Option (Option Text) := none
  isActive : Option (Option Bool) := none

inductive ScheduleAnswer
  | row (s : ScheduledPrompt)
  | deleted
  | refused (status : Nat)
  /-- An exception that nothing catches. -/
  | failed

/-- `create_schedule`, with the `uuid4` of the new row. -/
def createSchedule (cron : Cron τ) (rows : Schedules) (body : ScheduleCreate) (user : Nat) (id : Uuid)
    (now : Nat) : Schedules × ScheduleAnswer :=
  if !validName body.name || body.prompt.isEmpty then (rows, .refused 422)
  else
    match validateSchedule cron body.schedule with
    | none => (rows, .refused 422)
    | some expr =>
      match cron.getNext expr now with
      | none => (rows, .failed)
      | some next =>
        let s : ScheduledPrompt :=
          { id := id, userId := user, name := strip body.name, prompt := body.prompt
            cronExpr := expr, modelOverride := body.modelOverride, isActive := true
            nextRunAt := some next }
        (rows.insert s, .row s)

/-- The schedule of the user that a path names. -/
def ownSchedule (rows : Schedules) (path : Option Uuid) (user : Nat) : Option ScheduledPrompt :=
  (path.bind rows.find).filter fun s => s.userId = user

/-- `SchedulePatch` as validated: the expression is resolved. -/
def SchedulePatch.validate (cron : Cron τ) (body : SchedulePatch) : Option SchedulePatch :=
  if (body.name.join.all validName) && (body.prompt.join.all fun p => !p.isEmpty) then
    match body.schedule with
    | some (some v) => (validateSchedule cron v).map fun expr => { body with schedule := some (some expr) }
    | _ => some body
  else none

/-- The assignments of `patch_schedule`, `none` where one of them or the commit
raises: only `model_override` may be null. -/
def SchedulePatch.write (cron : Cron τ) (body : SchedulePatch) (now : Nat) (s : ScheduledPrompt) :
    Option ScheduledPrompt :=
  if body.name = some none ∨ body.prompt = some none ∨ body.isActive = some none then none
  else
    let s := { s with
      name := (body.name.join.map strip).getD s.name
      prompt := body.prompt.join.getD s.prompt
      modelOverride := body.modelOverride.getD s.modelOverride
      isActive := body.isActive.join.getD s.isActive }
    match body.schedule with
    | none => some s
    | some none => none
    | some (some expr) =>
      (cron.getNext expr now).map fun next => { s with cronExpr := expr, nextRunAt := some next }

def patchSchedule (cron : Cron τ) (rows : Schedules) (path : Option Uuid) (body : SchedulePatch)
    (user now : Nat) : Schedules × ScheduleAnswer :=
  match body.validate cron with
  | none => (rows, .refused 422)
  | some body =>
    match ownSchedule rows path user with
    | none => (rows, .refused 404)
    | some s =>
      match body.write cron now s with
      | none => (rows, .failed)
      | some s => (rows.put s, .row s)

def deleteSchedule (rows : Schedules) (path : Option Uuid) (user : Nat) : Schedules × ScheduleAnswer :=
  match ownSchedule rows path user with
  | none => (rows, .refused 404)
  | some s => (rows.delete s.id, .deleted)

/-! ## The jobs -/

structure Job (τ : Type) where
  id : Text
  trigger : τ

abbrev JobStore (τ : Type) := Rows (Job.id (τ := τ))

/-- `job_id.startswith("__") and job_id.endswith("__")`. -/
def isInternal (jobId : Text) : Bool :=
  startsWith jobId "__".toList && "__".toList.isSuffixOf jobId

/-- The job of a schedule, unless its expression is invalid. -/
def ScheduledPrompt.job (cron : Cron τ) (s : ScheduledPrompt) : Option (Job τ) :=
  (cron.fromCrontab s.cronExpr).map fun trigger => ⟨s.id.str, trigger⟩

/-- `scheduler.add_job` with `replace_existing`. -/
def addJob (cron : Cron τ) (jobs : JobStore τ) (s : ScheduledPrompt) : JobStore τ :=
  match s.job cron with
  | some job => jobs.put job
  | none => jobs

def syncSchedules (cron : Cron τ) (rows : Schedules) (jobs : JobStore τ) : JobStore τ :=
  let schedules := rows.list.filter (·.isActive)
  let activeIds := schedules.map (·.id.str)
  let existing := jobs.list.map Job.id
  let stale := existing.filter fun id => !activeIds.contains id && !isInternal id
  let new := schedules.filter fun s => !existing.contains s.id.str
  new.foldl (addJob cron) (stale.foldl Rows.delete jobs)

/-- The jobs of the schedules, and the others as they were. -/
structure Agree (cron : Cron τ) (rows : Schedules) (before after : JobStore τ) : Prop where
  schedules : ∀ id, isInternal id = false → ∀ job, after.find id = some job ↔
    ∃ s ∈ rows.list, s.isActive = true ∧ s.id.str = id ∧ s.job cron = some job
  untouched : ∀ id, isInternal id = true → after.find id = before.find id

/-- The job that an active schedule has already is the one it should have. -/
def UpToDate (cron : Cron τ) (rows : Schedules) (jobs : JobStore τ) : Prop :=
  ∀ s ∈ rows.list, s.isActive = true → ∀ job, jobs.find s.id.str = some job → s.job cron = some job

variable {cron : Cron τ} {rows : Schedules} {jobs : JobStore τ}

theorem str_not_internal (u : Uuid) : isInternal u.str = false := by
  unfold isInternal
  rw [show ("__".toList : Text) = '_' :: ['_'] from rfl, u.not_startsWith_underscore, Bool.false_and]

theorem job_id {s : ScheduledPrompt} {job : Job τ} (h : s.job cron = some job) : job.id = s.id.str := by
  unfold ScheduledPrompt.job at h
  obtain ⟨trigger, _, rfl⟩ := Option.map_eq_some_iff.mp h
  rfl

theorem find_addJob (s : ScheduledPrompt) (id : Text) :
    (addJob cron jobs s).find id = if id = s.id.str then (s.job cron).or (jobs.find id)
      else jobs.find id := by
  unfold addJob
  split
  next job hjob =>
    rw [Rows.find_put, job_id hjob, hjob, Option.some_or]
  next hnone =>
    rw [hnone, Option.none_or, ite_self]

/-- What the loop that adds jobs leaves alone. -/
theorem find_foldl_addJob_of_not_mem {schedules : List ScheduledPrompt} {id : Text}
    (h : ∀ s ∈ schedules, s.id.str ≠ id) (jobs : JobStore τ) :
    (schedules.foldl (addJob cron) jobs).find id = jobs.find id := by
  induction schedules generalizing jobs with
  | nil => rfl
  | cons s schedules ih =>
    rw [List.foldl_cons, ih fun t ht => h t (List.mem_cons_of_mem _ ht), find_addJob,
      if_neg (h s (List.mem_cons_self ..)).symm]

/-- What it adds, to the jobs of no schedule. -/
theorem find_foldl_addJob {schedules : List ScheduledPrompt} (hids : (schedules.map (·.id)).Nodup)
    {s : ScheduledPrompt} (hs : s ∈ schedules) (hnone : jobs.find s.id.str = none) :
    (schedules.foldl (addJob cron) jobs).find s.id.str = s.job cron := by
  induction schedules generalizing jobs with
  | nil => exact absurd hs List.not_mem_nil
  | cons t schedules ih =>
    rw [List.map_cons, List.nodup_cons] at hids
    rw [List.foldl_cons]
    rcases List.mem_cons.mp hs with heq | hmem
    · subst heq
      rw [find_foldl_addJob_of_not_mem, find_addJob, if_pos rfl, hnone, Option.or_none]
      intro t ht heq
      exact hids.1 (Uuid.str_injective heq ▸ List.mem_map_of_mem ht)
    · refine ih hids.2 hmem ?_
      have hne : s.id.str ≠ t.id.str := by
        intro heq
        exact hids.1 (Uuid.str_injective heq ▸ List.mem_map_of_mem hmem)
      rw [find_addJob, if_neg hne, hnone]

/-- What the loop that removes jobs leaves. -/
theorem find_kept (rows : Schedules) (jobs : JobStore τ) (id : Text) :
    ((((jobs.list.map Job.id).filter fun id =>
      !((rows.list.filter (·.isActive)).map (·.id.str)).contains id && !isInternal id).foldl
        Rows.delete jobs).find id) =
      if isInternal id = true ∨ ∃ s ∈ rows.list, s.isActive = true ∧ s.id.str = id then jobs.find id
      else none := by
  rw [Rows.find_foldl_delete]
  by_cases hkeep : isInternal id = true ∨ ∃ s ∈ rows.list, s.isActive = true ∧ s.id.str = id
  · rw [if_pos hkeep, if_neg]
    intro hmem
    have hstale := (List.mem_filter.mp hmem).2
    simp at hstale
    rcases hkeep with hinternal | ⟨s, hs, hactive, hid⟩
    · rw [hinternal] at hstale
      exact absurd hstale.2 (by simp)
    · exact hstale.1 s hs hactive hid
  · rw [if_neg hkeep]
    cases hfind : jobs.find id with
    | none => rw [ite_self]
    | some job =>
      rw [if_pos]
      obtain ⟨hjob, hid⟩ := Rows.find_eq_some.mp hfind
      refine List.mem_filter.mpr ⟨hid ▸ List.mem_map_of_mem hjob, ?_⟩
      push Not at hkeep
      simpa using ⟨hkeep.2, by simpa using hkeep.1⟩

theorem eq_of_str_eq {s t : ScheduledPrompt} (hs : s ∈ rows.list) (ht : t ∈ rows.list)
    (h : s.id.str = t.id.str) : s = t :=
  List.inj_on_of_nodup_map rows.unique hs ht (Uuid.str_injective h)

/-- The job of an active schedule: the one that is there, or a new one. -/
theorem find_sync_active {s : ScheduledPrompt} (hs : s ∈ rows.list) (hactive : s.isActive = true) :
    (syncSchedules cron rows jobs).find s.id.str = (jobs.find s.id.str).or (s.job cron) := by
  have hkept := find_kept rows jobs s.id.str
  rw [if_pos (.inr ⟨s, hs, hactive, rfl⟩)] at hkept
  unfold syncSchedules
  dsimp only
  cases hfind : jobs.find s.id.str with
  | some job =>
    -- the id exists, so the loop passes over it
    rw [find_foldl_addJob_of_not_mem, hkept, hfind, Option.some_or]
    intro t ht heq
    obtain ⟨hjob, hid⟩ := Rows.find_eq_some.mp hfind
    have hnew := (List.mem_filter.mp ht).2
    rw [heq, ← hid] at hnew
    simp at hnew
    exact hnew job hjob rfl
  | none =>
    rw [find_foldl_addJob, Option.none_or]
    · have hsub := (List.filter_sublist (l := rows.list) (p := (·.isActive))).map ScheduledPrompt.id
      exact (rows.unique.sublist hsub).sublist (List.filter_sublist.map ScheduledPrompt.id)
    · refine List.mem_filter.mpr ⟨List.mem_filter.mpr ⟨hs, hactive⟩, ?_⟩
      have hnone := Rows.find_eq_none.mp hfind
      simpa using hnone
    · rw [hkept, hfind]

/-- Every other job is kept if it is internal. -/
theorem find_sync_other {id : Text} (h : ∀ s ∈ rows.list, s.isActive = true → s.id.str ≠ id) :
    (syncSchedules cron rows jobs).find id = if isInternal id = true then jobs.find id else none := by
  have hnone : ¬ ∃ s ∈ rows.list, s.isActive = true ∧ s.id.str = id := by
    intro ⟨s, hs, hactive, hid⟩
    exact h s hs hactive hid
  unfold syncSchedules
  dsimp only
  rw [find_foldl_addJob_of_not_mem, find_kept]
  · simp only [hnone, or_false]
  · intro s hs
    have hactive := List.mem_filter.mp (List.mem_filter.mp hs).1
    exact h s hactive.1 hactive.2

theorem agree_sync_iff : Agree cron rows jobs (syncSchedules cron rows jobs) ↔ UpToDate cron rows jobs := by
  constructor
  · intro h s hs hactive job hfind
    have hsync : (syncSchedules cron rows jobs).find s.id.str = some job := by
      rw [find_sync_active hs hactive, hfind, Option.some_or]
    obtain ⟨t, ht, _, hid, hjob⟩ := (h.schedules _ (str_not_internal _) job).mp hsync
    exact eq_of_str_eq ht hs hid ▸ hjob
  · intro h
    constructor
    · intro id hid job
      by_cases hs : ∃ s ∈ rows.list, s.isActive = true ∧ s.id.str = id
      · obtain ⟨s, hs, hactive, rfl⟩ := hs
        have hjob : (jobs.find s.id.str).or (s.job cron) = s.job cron := by
          cases hfind : jobs.find s.id.str with
          | none => exact Option.none_or
          | some old => rw [Option.some_or, h s hs hactive old hfind]
        rw [find_sync_active hs hactive, hjob]
        constructor
        · intro hsome
          exact ⟨s, hs, hactive, rfl, hsome⟩
        · intro ⟨t, ht, _, hstr, hsome⟩
          exact eq_of_str_eq ht hs hstr ▸ hsome
      · rw [find_sync_other fun s hmem hactive hstr => hs ⟨s, hmem, hactive, hstr⟩, hid]
        constructor
        · intro hsome
          exact absurd hsome (by simp)
        · intro ⟨s, hmem, hactive, hstr, _⟩
          exact absurd ⟨s, hmem, hactive, hstr⟩ hs
    · intro id hid
      rw [find_sync_other, if_pos hid]
      intro s _ _ hstr
      rw [← hstr, str_not_internal] at hid
      exact absurd hid (by simp)

/-! ## Histories -/

/-- The rows and the job store of the scheduler. -/
structure SchedulerState (τ : Type) where
  rows : Schedules
  jobs : JobStore τ

inductive ScheduleEvent
  | create (body : ScheduleCreate) (user : Nat) (id : Uuid) (now : Nat)
  | patch (path : Option Uuid) (body : SchedulePatch) (user now : Nat)
  | delete (path : Option Uuid) (user : Nat)
  | sync

def SchedulerState.next (cron : Cron τ) (s : SchedulerState τ) : ScheduleEvent → SchedulerState τ
  | .create body user id now => { s with rows := (createSchedule cron s.rows body user id now).1 }
  | .patch path body user now => { s with rows := (patchSchedule cron s.rows path body user now).1 }
  | .delete path user => { s with rows := (deleteSchedule s.rows path user).1 }
  | .sync => { s with jobs := syncSchedules cron s.rows s.jobs }

/-- After a sync the jobs are those of the schedules. -/
def AgreeAfter (cron : Cron τ) (s : SchedulerState τ) : ScheduleEvent → Prop
  | .sync => Agree cron s.rows s.jobs (s.next cron .sync).jobs
  | _ => True

/-- A sync finds no active schedule with a job of another expression. -/
def SyncsUpToDate (cron : Cron τ) (s : SchedulerState τ) : ScheduleEvent → Prop
  | .sync => UpToDate cron s.rows s.jobs
  | _ => True

/-- Of any schedules and any jobs, every sync of a history leaves the jobs of the
schedules exactly when none finds an active schedule that has a job already and
should have another. -/
theorem agree_iff (cron : Cron τ) (s : SchedulerState τ) (events : List ScheduleEvent) :
    Throughout (SchedulerState.next cron) (AgreeAfter cron) s events ↔
      Throughout (SchedulerState.next cron) (SyncsUpToDate cron) s events := by
  refine throughout_congr (fun _ => True) (fun _ _ _ => trivial) ?_ trivial events
  intro s e _
  cases e with
  | sync => exact agree_sync_iff
  | _ => exact Iff.rfl

/-! ## A schedule that is moved -/

/-- Every expression is valid and its own trigger. -/
def plainCron : Cron Text where
  isValid := fun _ => true
  getNext := fun _ now => some (now + 1)
  fromCrontab := some
  lower := id

def someUuid : Uuid := ⟨List.replicate 32 0, by simp⟩

/-- Created for midnight, synced, and moved to one o'clock. -/
def movedSchedule : List ScheduleEvent :=
  [.create ⟨"digest".toList, "news".toList, "0 0 * * *".toList, none⟩ 1 someUuid 0, .sync,
    .patch (some someUuid) { schedule := some (some "0 1 * * *".toList) } 1 10]

def noSchedules : SchedulerState Text := ⟨Rows.empty, Rows.empty⟩

theorem movedSchedule_stale : ¬ ∀ (s : SchedulerState Text) (events : List ScheduleEvent),
    Throughout (SchedulerState.next plainCron) (AgreeAfter plainCron) s events := by
  intro h
  obtain ⟨_, hsync, _⟩ := throughout_append.mp (h noSchedules (movedSchedule ++ [.sync]))
  have hmoved := agree_sync_iff.mp hsync
  have hrow : ((run (SchedulerState.next plainCron) noSchedules movedSchedule).rows.list.map
      fun s => (s.id, s.isActive, s.job plainCron |>.map Job.trigger)) =
        [(someUuid, true, some "0 1 * * *".toList)] := by
    decide
  have hjob : ((run (SchedulerState.next plainCron) noSchedules movedSchedule).jobs.find
      someUuid.str).map Job.trigger = some "0 0 * * *".toList := by
    decide
  obtain ⟨job, hfind, htrigger⟩ := Option.map_eq_some_iff.mp hjob
  obtain ⟨s, hs, hfields⟩ := List.mem_map.mp (hrow ▸ List.mem_singleton_self _)
  obtain ⟨hid, hactive, hnew⟩ : s.id = someUuid ∧ s.isActive = true ∧
      (s.job plainCron).map Job.trigger = some "0 1 * * *".toList := by
    simpa using hfields
  rw [hmoved s hs hactive job (by rw [hid]; exact hfind), Option.map_some, htrigger] at hnew
  exact absurd hnew (by decide)

end Eidetic.Jobs
