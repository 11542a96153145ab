import Eidetic.Lib.DoneMark
import Eidetic.Lib.Rows
import Eidetic.Lib.Run
import Eidetic.Py.Text
import Mathlib.Data.List.Perm.Basic

/-!
# Webhook events and their insights

`receive_webhook` stores an event for the user whose token it was sent to, and
queues `process_webhook_job` for it. The queue may run a job any number of times,
also at once. A run asks the model for an insight, adds it, and sets the event to
`processed` in the same transaction; an exception sets it to `error`, from which
the event is processed again.

An event leads to no more insights than runs of it can be at work at once, for
each time that it was open (`added_le`); to one at most if its runs do not overlap
and no reply to a commit is lost (`added_once`). An insight is for a user who was
active, and had the token, when its event came (`insight_received`).

The tables, the requests that were let in and the runs of the job are one state,
and a step is a statement of one of them: a request stores its event, a run
loads it, has an answer, commits, or writes its error. `next_cases` says once
what a step can do, as changes of the runs (`Turns`) and of the rows, and every
invariant below is kept case by case of it.

There are three. `Tallied` counts for one event, through the library's
`DoneMark`, what was added and what the runs that are at work can still add
against the number of times that the event was open. `Orderly` is what is known
when the runs of the event do not overlap: one at most is at work, and nothing
was added while the event is not processed. `Sourced` follows the user of an
insight back through the run and the event to the request that was let in.
-/

namespace Eidetic.Jobs

open Eidetic.Lib Eidetic.Py

/-- What the endpoints read and write of a user; tokens are told apart by numbers. -/
structure WebhookUser where
  id : Nat
  webhookToken : Option Nat := none
  isActive : Bool := true

/-- `VALID_EVENT_TYPES`. -/
def validEventTypes : List Text :=
  ["file.uploaded".toList, "reminder".toList, "external.data".toList]

inductive EventStatus
  | pending
  | processed
  | error
  deriving DecidableEq

/-- A row of `webhook_events`; the ids are numbered as the rows are added. -/
structure WebhookEvent where
  id : Nat
  userId : Nat
  eventType : Text
  status : EventStatus := .pending
  error : Option Text := none

/-- A row of `user_insights`, and the event of the job that has added it. -/
structure WebhookInsight where
  userId : Nat
  content : Text
  event : Nat

/-- Where a run of `process_webhook_job` is. -/
inductive WebhookPhase
  /-- It has loaded the event, and the model is asked. -/
  | asking (loaded : WebhookEvent)
  /-- The model has answered, and the commit comes next. -/
  | adding (loaded : WebhookEvent) (insight : Option Text)
  /-- An exception was caught. -/
  | failing (error : Text)
  /-- The event is loaded again, and the error is to be committed. -/
  | marking (loaded : WebhookEvent) (error : Text)

structure WebhookRun where
  event : Nat
  phase : WebhookPhase

/-- A request that was let in: its event is not stored yet. -/
structure WebhookRequest where
  userId : Nat
  eventType : Text

/-- The tables, the requests and the runs; of the insights all that were ever added. -/
structure Webhooks where
  users : Rows WebhookUser.id := .empty
  events : Rows WebhookEvent.id := .empty
  nextEvent : Nat := 0
  insights : List WebhookInsight := []
  requests : List WebhookRequest := []
  runs : List WebhookRun := []

/-- A commit is answered, or fails after or before it has had its effect. -/
inductive CommitReply
  | answered
  | lost
  | undone
  deriving DecidableEq

inductive WebhookInput
  | addUser (user : Nat)
  | setActive (user : Nat) (active : Bool)
  | deleteUser (user : Nat)
  /-- `generate_webhook_token` and `revoke_webhook_token`. -/
  | generate (user token : Nat)
  | revoke (user : Nat)
  /-- The checks of `receive_webhook`, and its commit. -/
  | receive (token : Nat) (eventType : Text)
  | store (i : Nat)
  /-- A run loads its event. -/
  | load (event : Nat)
  | answer (i : Nat) (insight : Option Text)
  | commit (i : Nat) (reply : CommitReply) (error : Text)
  /-- An exception before the commit. -/
  | raise (i : Nat) (error : Text)
  | reload (i : Nat)
  | mark (i : Nat) (reply : CommitReply)
  /-- The worker goes down. -/
  | crash (i : Nat)

/-- `row.status = "error"; row.error = str(e)`: what is as it was loaded is not written. -/
def WebhookEvent.fail (loaded : WebhookEvent) (error : Text) (row : WebhookEvent) : WebhookEvent :=
  { row with
    status := if loaded.status = .error then row.status else .error
    error := if loaded.error = some error then row.error else some error }

namespace Webhooks

/-- A run makes a step, or ends. -/
def goes (s : Webhooks) (i : Nat) (event : Nat) (phase : Option WebhookPhase) : Webhooks :=
  { s with runs := (phase.map (WebhookRun.mk event)).toList ++ s.runs.eraseIdx i }

/-- The insight, if there is one, and the status. -/
def process (s : Webhooks) (event : Nat) (loaded : WebhookEvent) (insight : Option Text) : Webhooks :=
  { s with
    insights := (insight.map fun content => ⟨loaded.userId, content, event⟩).toList ++ s.insights
    events := s.events.updateAt event (fun row => { row with status := .processed }) fun _ => rfl }

def recordError (s : Webhooks) (event : Nat) (loaded : WebhookEvent) (error : Text) : Webhooks :=
  { s with events := s.events.updateAt event (loaded.fail error) fun _ => rfl }

/-- A step of a run. -/
def step (s : Webhooks) (i event : Nat) : WebhookPhase → WebhookInput → Webhooks
  | .asking loaded, .answer _ insight => s.goes i event (some (.adding loaded insight))
  | .asking _, .raise _ error => s.goes i event (some (.failing error))
  | .adding .., .raise _ error => s.goes i event (some (.failing error))
  | .adding loaded insight, .commit _ reply error =>
    match reply, s.events.find event with
    | .answered, some _ => (s.process event loaded insight).goes i event none
    | .lost, some _ => (s.process event loaded insight).goes i event (some (.failing error))
    -- the row is gone, or nothing was written
    | _, _ => s.goes i event (some (.failing error))
  | .failing error, .reload _ =>
    match s.events.find event with
    | some row => s.goes i event (some (.marking row error))
    | none => s.goes i event none
  | .marking loaded error, .mark _ reply =>
    if reply = .undone then s.goes i event none
    else (s.recordError event loaded error).goes i event none
  | _, .crash _ => s.goes i event none
  | _, _ => s

def stepAt (s : Webhooks) (i : Nat) (e : WebhookInput) : Webhooks :=
  match s.runs[i]? with
  | some r => s.step i r.event r.phase e
  | none => s

def next (s : Webhooks) : WebhookInput → Webhooks
  | .addUser user => { s with users := s.users.insert { id := user } }
  | .setActive user active =>
    { s with users := s.users.updateAt user (fun u => { u with isActive := active }) fun _ => rfl }
  | .deleteUser user =>
    { s with
      users := s.users.delete user
      events := s.events.filter fun row => row.userId ≠ user }
  | .generate user token =>
    -- the tokens of users are unique
    if s.users.list.any fun u => u.webhookToken = some token then s
    else
      { s with
        users := s.users.updateAt user (fun u => { u with webhookToken := some token }) fun _ => rfl }
  | .revoke user =>
    { s with users := s.users.updateAt user (fun u => { u with webhookToken := none }) fun _ => rfl }
  | .receive token eventType =>
    if eventType ∈ validEventTypes then
      match s.users.list.filter fun u => u.webhookToken = some token with
      | [u] => if u.isActive then { s with requests := ⟨u.id, eventType⟩ :: s.requests } else s
      | _ => s
    else s
  | .store i =>
    match s.requests[i]? with
    | some r =>
      let s := { s with requests := s.requests.eraseIdx i }
      match s.users.find r.userId with
      | some _ =>
        { s with
          events := s.events.insert { id := s.nextEvent, userId := r.userId, eventType := r.eventType }
          nextEvent := s.nextEvent + 1 }
      | none => s
    | none => s
  | .load event =>
    match s.events.find event with
    | some row =>
      if row.status = .processed then s else { s with runs := ⟨event, .asking row⟩ :: s.runs }
    | none => s
  | .answer i insight => s.stepAt i (.answer i insight)
  | .commit i reply error => s.stepAt i (.commit i reply error)
  | .raise i error => s.stepAt i (.raise i error)
  | .reload i => s.stepAt i (.reload i)
  | .mark i reply => s.stepAt i (.mark i reply)
  | .crash i => s.stepAt i (.crash i)

end Webhooks

/-! ## What a step can do -/

/-- The event that a run works on before its commit. -/
def WebhookPhase.work : WebhookPhase → Option WebhookEvent
  | .asking loaded | .adding loaded _ => some loaded
  | .failing _ | .marking .. => none

namespace Webhooks

variable {s : Webhooks} {e : WebhookInput} {i k event cleared : Nat} {r : WebhookRun}

/-- The request was let in with the token of its user, who was active. -/
def Admitted (s : Webhooks) (e : WebhookInput) (r : WebhookRequest) : Prop :=
  ∃ token u, e = .receive token r.eventType ∧ r.eventType ∈ validEventTypes ∧ u ∈ s.users.list ∧
    u.id = r.userId ∧ u.webhookToken = some token ∧ u.isActive = true

/-- What a run can do: go on, not to other work; commit what it has to add; or
commit an error. -/
inductive Turns (s : Webhooks) (e : WebhookInput) (i : Nat) (r : WebhookRun) : Webhooks → Prop
  | goOn (phase : Option WebhookPhase)
      (work : ∀ p ∈ phase, ∀ row, p.work = some row → r.phase.work = some row) :
      Turns s e i r (s.goes i r.event phase)
  | process {loaded row : WebhookEvent} {insight : Option Text} (phase : Option WebhookPhase)
      (adding : r.phase = .adding loaded insight) (found : s.events.find r.event = some row)
      (work : ∀ p ∈ phase, p.work = none)
      (ends : phase = none ∨ ∃ error, e = .commit i .lost error) :
      Turns s e i r ((s.process r.event loaded insight).goes i r.event phase)
  | recordError {loaded : WebhookEvent} {error : Text} (marking : r.phase = .marking loaded error) :
      Turns s e i r ((s.recordError r.event loaded error).goes i r.event none)

theorem turns_rest {phase : Option WebhookPhase} (h : ∀ p ∈ phase, p.work = none) :
    Turns s e i r (s.goes i r.event phase) :=
  .goOn phase fun p hp row hrow => absurd ((h p hp).symm.trans hrow) (by simp)

theorem stepAt_cases (s : Webhooks) (i : Nat) {e : WebhookInput}
    (hi : ∀ j reply error, e = .commit j reply error → j = i) :
    s.stepAt i e = s ∨ ∃ r, s.runs[i]? = some r ∧ Turns s e i r (s.stepAt i e) := by
  have hend : ∀ p ∈ (none : Option WebhookPhase), p.work = none := fun p hp => absurd hp (by simp)
  unfold stepAt
  cases hr : s.runs[i]? with
  | none => exact .inl rfl
  | some r =>
    obtain ⟨event, phase⟩ := r
    dsimp only
    unfold step
    split
    next loaded _ insight =>
      refine .inr ⟨_, rfl, .goOn _ fun p hp row hrow => ?_⟩
      obtain rfl := Option.some.inj hp
      exact hrow
    next => exact .inr ⟨_, rfl, turns_rest (by simp [WebhookPhase.work])⟩
    next => exact .inr ⟨_, rfl, turns_rest (by simp [WebhookPhase.work])⟩
    next loaded insight j reply error =>
      -- a reply that is lost leaves the commit's effect, and the run goes to its handler
      obtain rfl := hi j reply error rfl
      split
      next row hfind => exact .inr ⟨_, rfl, .process none rfl hfind hend (.inl rfl)⟩
      next row hfind =>
        exact .inr ⟨_, rfl, .process _ rfl hfind (by simp [WebhookPhase.work]) (.inr ⟨error, rfl⟩)⟩
      next => exact .inr ⟨_, rfl, turns_rest (by simp [WebhookPhase.work])⟩
    next error _ =>
      split
      next => exact .inr ⟨_, rfl, turns_rest (by simp [WebhookPhase.work])⟩
      next => exact .inr ⟨_, rfl, turns_rest hend⟩
    next loaded error _ reply =>
      split
      next => exact .inr ⟨_, rfl, turns_rest hend⟩
      next => exact .inr ⟨_, rfl, .recordError rfl⟩
    next => exact .inr ⟨_, rfl, turns_rest hend⟩
    next => exact .inl rfl

/-- Only an active user whose token it is lets a request in. -/
theorem receive_cases (s : Webhooks) (token : Nat) (eventType : Text) :
    ∃ users requests, (∀ r ∈ requests, r ∈ s.requests ∨ Admitted s (.receive token eventType) r) ∧
      next s (.receive token eventType) = { s with users, requests } := by
  unfold next
  dsimp only
  split
  next hvalid =>
    split
    next u hu =>
      split
      next hactive =>
        refine ⟨s.users, _, fun r hr => ?_, rfl⟩
        rcases List.mem_cons.mp hr with rfl | hold
        · have hmem : u ∈ s.users.list.filter fun u => u.webhookToken = some token := by
            rw [hu]
            exact List.mem_singleton_self u
          obtain ⟨hu, htoken⟩ := List.mem_filter.mp hmem
          exact .inr ⟨token, u, rfl, hvalid, hu, rfl, of_decide_eq_true htoken, hactive⟩
        · exact .inl hold
      next => exact ⟨s.users, s.requests, fun r hr => .inl hr, rfl⟩
    next => exact ⟨s.users, s.requests, fun r hr => .inl hr, rfl⟩
  next => exact ⟨s.users, s.requests, fun r hr => .inl hr, rfl⟩

/-- What a step can do. -/
theorem next_cases (s : Webhooks) (e : WebhookInput) :
    (∃ users requests, (∀ r ∈ requests, r ∈ s.requests ∨ Admitted s e r) ∧
      next s e = { s with users, requests }) ∨
    (∃ users kept, next s e = { s with users, events := s.events.filter kept }) ∨
    (∃ i r, e = .store i ∧ s.requests[i]? = some r ∧ next s e =
      { s with
        requests := s.requests.eraseIdx i
        events := s.events.insert { id := s.nextEvent, userId := r.userId, eventType := r.eventType }
        nextEvent := s.nextEvent + 1 }) ∨
    (∃ event row, e = .load event ∧ s.events.find event = some row ∧ row.status ≠ .processed ∧
      next s e = { s with runs := ⟨event, .asking row⟩ :: s.runs }) ∨
    ∃ i r, s.runs[i]? = some r ∧ Turns s e i r (next s e) := by
  have hidle : next s e = s → ∃ users requests, (∀ r ∈ requests, r ∈ s.requests ∨ Admitted s e r) ∧
      next s e = { s with users, requests } :=
    fun hsame => ⟨s.users, s.requests, fun r hr => .inl hr, hsame⟩
  have hturn : ∀ i, next s e = s.stepAt i e → (∀ j reply error, e = .commit j reply error → j = i) →
      (∃ users requests, (∀ r ∈ requests, r ∈ s.requests ∨ Admitted s e r) ∧
        next s e = { s with users, requests }) ∨ ∃ i r, s.runs[i]? = some r ∧ Turns s e i r (next s e) := by
    intro i hnext hi
    rcases s.stepAt_cases i hi with hsame | ⟨r, hr, hturns⟩
    · exact .inl (hidle (hnext.trans hsame))
    · exact .inr ⟨i, r, hr, hnext ▸ hturns⟩
  -- the inputs that name a run are turns; each of the others has its own form
  cases e with
  | addUser user => exact .inl ⟨_, s.requests, fun r hr => .inl hr, rfl⟩
  | setActive user active => exact .inl ⟨_, s.requests, fun r hr => .inl hr, rfl⟩
  | deleteUser user => exact .inr (.inl ⟨_, _, rfl⟩)
  | generate user token =>
    refine .inl ?_
    by_cases htaken : (s.users.list.any fun u => u.webhookToken = some token) = true
    · exact hidle (if_pos htaken)
    · exact ⟨_, s.requests, fun r hr => .inl hr, if_neg htaken⟩
  | revoke user => exact .inl ⟨_, s.requests, fun r hr => .inl hr, rfl⟩
  | receive token eventType => exact .inl (receive_cases s token eventType)
  | store i =>
    cases hr : s.requests[i]? with
    | none => exact .inl (hidle (by simp only [next, hr]))
    | some r =>
      cases hu : s.users.find r.userId with
      | none =>
        refine .inl ⟨s.users, s.requests.eraseIdx i, fun r hr => .inl (List.mem_of_mem_eraseIdx hr), ?_⟩
        simp only [next, hr, hu]
      | some u =>
        refine .inr (.inr (.inl ⟨i, r, rfl, hr, ?_⟩))
        simp only [next, hr, hu]
  | load event =>
    cases hfind : s.events.find event with
    | none => exact .inl (hidle (by simp only [next, hfind]))
    | some row =>
      by_cases hprocessed : row.status = .processed
      · exact .inl (hidle (by simp only [next, hfind, if_pos hprocessed]))
      · refine .inr (.inr (.inr (.inl ⟨event, row, rfl, hfind, hprocessed, ?_⟩)))
        simp only [next, hfind, if_neg hprocessed]
  | answer i insight => exact (hturn i rfl (by simp)).imp_right fun h => .inr (.inr (.inr h))
  | commit i reply error =>
    refine (hturn i rfl ?_).imp_right fun h => .inr (.inr (.inr h))
    rintro j reply' error' heq
    obtain ⟨rfl, _⟩ := WebhookInput.commit.inj heq
    rfl
  | raise i error => exact (hturn i rfl (by simp)).imp_right fun h => .inr (.inr (.inr h))
  | reload i => exact (hturn i rfl (by simp)).imp_right fun h => .inr (.inr (.inr h))
  | mark i reply => exact (hturn i rfl (by simp)).imp_right fun h => .inr (.inr (.inr h))
  | crash i => exact (hturn i rfl (by simp)).imp_right fun h => .inr (.inr (.inr h))

/-! ## How many insights an event leads to -/

/-- The event is there, and not processed. -/
def isOpen (s : Webhooks) (event : Nat) : Bool :=
  (s.events.find event).any fun row => row.status ≠ .processed

/-- The insights that runs of the event have added. -/
def added (s : Webhooks) (event : Nat) : Nat := s.insights.countP fun i => i.event = event

/-- The run is one of the event, before its commit. -/
def worksOn (event : Nat) (r : WebhookRun) : Bool := r.event = event && r.phase.work.isSome

/-- The runs of the event that are before their commit. -/
def going (s : Webhooks) (event : Nat) : Nat := s.runs.countP (worksOn event)

/-- A run of the event is begun only while fewer than `k` are before their commit. -/
def AtOnce (k event : Nat) (s : Webhooks) (e : WebhookInput) : Prop := e = .load event → s.going event < k

/-- The event was closed, and a step has opened it again. -/
def reopens (event : Nat) (s : Webhooks) (e : WebhookInput) : Bool :=
  !s.isOpen event && (next s e).isOpen event && event < s.nextEvent

theorem isOpen_iff : s.isOpen event = true ↔
    ∃ row, s.events.find event = some row ∧ row.status ≠ .processed := by
  unfold isOpen
  rw [Option.any_eq_true]
  simp

theorem perm_runs (hr : s.runs[i]? = some r) : s.runs.Perm (r :: s.runs.eraseIdx i) := by
  obtain ⟨hi, hget⟩ := List.getElem?_eq_some_iff.mp hr
  rw [← hget]
  exact (List.getElem_cons_eraseIdx_perm hi).symm

theorem going_eq (hr : s.runs[i]? = some r) :
    s.going event = (s.runs.eraseIdx i).countP (worksOn event) + if worksOn event r then 1 else 0 := by
  unfold going
  rw [(perm_runs hr).countP_eq, List.countP_cons]

theorem going_goes (s : Webhooks) (i n : Nat) (phase : Option WebhookPhase) :
    (s.goes i n phase).going event = (s.runs.eraseIdx i).countP (worksOn event) +
      if phase.any fun p => worksOn event ⟨n, p⟩ then 1 else 0 := by
  show ((phase.map (WebhookRun.mk n)).toList ++ s.runs.eraseIdx i).countP _ = _
  rw [List.countP_append, Nat.add_comm]
  cases phase with
  | none => rfl
  | some p => exact congrArg _ (List.countP_singleton ..)

/-- A run that goes on, not to other work. -/
theorem going_goOn (hr : s.runs[i]? = some r) {phase : Option WebhookPhase}
    (hwork : ∀ p ∈ phase, ∀ row, p.work = some row → r.phase.work = some row) :
    (s.goes i r.event phase).going event ≤ s.going event := by
  rw [going_goes, going_eq hr]
  refine Nat.add_le_add_left ?_ _
  by_cases hany : (phase.any fun p => worksOn event ⟨r.event, p⟩) = true
  · obtain ⟨p, hp, hworks⟩ := (Option.any_eq_true ..).mp hany
    obtain ⟨hevent, hsome⟩ := Bool.and_eq_true_iff.mp hworks
    obtain ⟨row, hrow⟩ := Option.isSome_iff_exists.mp hsome
    have hr : worksOn event r = true := by
      refine Bool.and_eq_true_iff.mpr ⟨hevent, ?_⟩
      rw [hwork p hp row hrow]
      rfl
    rw [if_pos hr]
    split <;> omega
  · rw [if_neg hany]
    exact Nat.zero_le _

/-- A run that has no work any more. -/
theorem going_rest (hr : s.runs[i]? = some r) {phase : Option WebhookPhase}
    (hwork : ∀ p ∈ phase, p.work = none) :
    (s.goes i r.event phase).going event + (if worksOn event r then 1 else 0) = s.going event := by
  have hnone : (phase.any fun p => worksOn event ⟨r.event, p⟩) = false := by
    cases phase with
    | none => rfl
    | some p =>
      show worksOn event ⟨r.event, p⟩ = false
      unfold worksOn
      dsimp only
      rw [hwork p rfl]
      exact Bool.and_false _
  rw [going_goes, going_eq hr, hnone]
  rfl

/-- What is known of the event at every moment. -/
structure Tallied (k event cleared : Nat) (s : Webhooks) : Prop where
  mark : DoneMark k (!s.isOpen event) (s.added event) (s.going event) cleared
  rows : ∀ row ∈ s.events.list, row.id < s.nextEvent
  missing : s.nextEvent ≤ event → s.added event = 0 ∧ s.going event = 0

theorem Tallied.mono (h : s.Tallied k event cleared) (n : Nat) : s.Tallied k event (cleared + n) :=
  ⟨h.mark.mono (Nat.le_add_right ..), h.rows, h.missing⟩

/-- The row of a run's event, with its id and user as they were. -/
theorem find_updateAt (n : Nat) (f : WebhookEvent → WebhookEvent) (hf : ∀ row, (f row).id = row.id) :
    (s.events.updateAt n f hf).find event =
      (s.events.find event).map fun row => if event = n then f row else row := by
  by_cases hn : event = n
  · subst hn
    rw [Rows.find_updateAt_self]
    simp
  · rw [Rows.find_updateAt_of_ne hn]
    simp [hn]

theorem rows_updateAt (h : ∀ row ∈ s.events.list, row.id < s.nextEvent) (n : Nat)
    (f : WebhookEvent → WebhookEvent) (hf : ∀ row, (f row).id = row.id) :
    ∀ row ∈ (s.events.updateAt n f hf).list, row.id < s.nextEvent := by
  intro row hrow
  obtain ⟨old, hold, rfl⟩ := List.mem_map.mp hrow
  have hid : (if old.id = n then f old else old).id = old.id := by
    split
    · exact hf old
    · rfl
  rw [hid]
  exact h old hold

theorem find_process (s : Webhooks) (n : Nat) (loaded : WebhookEvent) (insight : Option Text) :
    (s.process n loaded insight).events.find event =
      (s.events.find event).map fun row => if event = n then { row with status := .processed } else row :=
  find_updateAt n (fun row => { row with status := .processed }) fun _ => rfl

theorem find_recordError (s : Webhooks) (n : Nat) (loaded : WebhookEvent) (error : Text) :
    (s.recordError n loaded error).events.find event =
      (s.events.find event).map fun row => if event = n then loaded.fail error row else row :=
  find_updateAt n (loaded.fail error) fun _ => rfl

theorem lt_of_find (h : ∀ row ∈ s.events.list, row.id < s.nextEvent) {row : WebhookEvent}
    (hfind : s.events.find event = some row) : event < s.nextEvent := by
  obtain ⟨hmem, hid⟩ := Rows.find_eq_some.mp hfind
  exact hid ▸ h row hmem

/-- Rows are deleted, with their user. -/
theorem Tallied.delete (h : s.Tallied k event cleared) (users : Rows WebhookUser.id)
    (kept : WebhookEvent → Bool) :
    ({ s with users, events := s.events.filter kept } : Webhooks).Tallied k event cleared := by
  have hopen : ({ s with users, events := s.events.filter kept } : Webhooks).isOpen event = true →
      s.isOpen event = true := by
    intro hopen
    obtain ⟨row, hfind, hstatus⟩ := isOpen_iff.mp hopen
    obtain ⟨hmem, hid⟩ := Rows.find_eq_some.mp hfind
    exact isOpen_iff.mpr ⟨row, Rows.find_eq_some.mpr ⟨List.mem_of_mem_filter hmem, hid⟩, hstatus⟩
  refine ⟨?_, fun row hrow => h.rows row (List.mem_of_mem_filter hrow), h.missing⟩
  -- an event that has gone is as good as processed: nothing is added for it any more
  cases hnew : ({ s with users, events := s.events.filter kept } : Webhooks).isOpen event with
  | false => exact h.mark.close
  | true =>
    have hmark := h.mark
    rw [hopen hnew] at hmark
    exact hmark

theorem rows_insert (h : ∀ row ∈ s.events.list, row.id < s.nextEvent) (r : WebhookRequest) :
    ∀ row ∈ (s.events.insert { id := s.nextEvent, userId := r.userId, eventType := r.eventType }).list,
      row.id < s.nextEvent + 1 := by
  intro row hrow
  rcases Rows.mem_of_mem_insert hrow with hold | rfl
  · exact Nat.lt_succ_of_lt (h row hold)
  · exact Nat.lt_succ_self _

/-- A new event has no insights, and no runs. -/
theorem Tallied.store (h : s.Tallied k event cleared) (requests : List WebhookRequest)
    (r : WebhookRequest) :
    ({ s with
      requests
      events := s.events.insert { id := s.nextEvent, userId := r.userId, eventType := r.eventType }
      nextEvent := s.nextEvent + 1 } : Webhooks).Tallied k event cleared := by
  refine ⟨?_, rows_insert h.rows r, fun hmissing => h.missing (Nat.le_of_succ_le hmissing)⟩
  -- before its number is given out the event has nothing, and may be the new row
  by_cases hevent : s.nextEvent ≤ event
  · obtain ⟨hadded, hgoing⟩ := h.missing hevent
    show DoneMark k _ (s.added event) (s.going event) cleared
    rw [hadded, hgoing]
    exact doneMark_zero
  · have hfind : (s.events.insert { id := s.nextEvent, userId := r.userId, eventType := r.eventType }).find
        event = s.events.find event := Rows.find_insert_of_ne (Nat.ne_of_lt (Nat.lt_of_not_le hevent))
    have hmark := h.mark
    unfold isOpen at hmark ⊢
    rw [hfind]
    exact hmark

theorem Tallied.load (h : s.Tallied k event cleared) {n : Nat} {row : WebhookEvent}
    (hfind : s.events.find n = some row) (hstatus : row.status ≠ .processed)
    (hk : n = event → s.going event < k) :
    ({ s with runs := ⟨n, .asking row⟩ :: s.runs } : Webhooks).Tallied k event cleared := by
  have hgoing : ({ s with runs := ⟨n, .asking row⟩ :: s.runs } : Webhooks).going event =
      s.going event + if n = event then 1 else 0 := by
    show (_ :: s.runs).countP _ = _
    rw [List.countP_cons]
    refine congrArg (s.going event + ·) ?_
    by_cases hn : n = event <;> simp [worksOn, WebhookPhase.work, hn]
  have hlt := lt_of_find h.rows hfind
  refine ⟨?_, h.rows, fun hmissing => ?_⟩
  · rw [hgoing]
    by_cases hn : n = event
    · subst hn
      have hopen : s.isOpen n = true := isOpen_iff.mpr ⟨row, hfind, hstatus⟩
      have hmark := h.mark
      rw [hopen] at hmark
      rw [if_pos rfl]
      show DoneMark k (!s.isOpen n) _ _ _
      rw [hopen]
      exact hmark.enter (hk rfl)
    · rw [if_neg hn]
      exact h.mark
  · have hne : n ≠ event := fun heq => by
      have hle : s.nextEvent ≤ event := hmissing
      omega
    rw [hgoing, if_neg hne]
    exact h.missing hmissing

theorem added_process_of_ne {n : Nat} (hn : n ≠ event) (loaded : WebhookEvent) (insight : Option Text) :
    (s.process n loaded insight).added event = s.added event := by
  show ((insight.map _).toList ++ s.insights).countP _ = _
  rw [List.countP_append]
  cases insight with
  | none => exact Nat.zero_add _
  | some content =>
    show [_].countP _ + _ = _
    rw [List.countP_singleton, if_neg (by simpa using hn)]
    exact Nat.zero_add _

theorem added_process_le (n : Nat) (loaded : WebhookEvent) (insight : Option Text) :
    (s.process n loaded insight).added event ≤ s.added event + 1 := by
  show ((insight.map _).toList ++ s.insights).countP _ ≤ _
  rw [List.countP_append, Nat.add_comm]
  refine Nat.add_le_add_left ?_ _
  cases insight with
  | none => exact Nat.zero_le _
  | some content => exact List.countP_le_length

theorem find_process_of_ne {n : Nat} (hn : n ≠ event) (loaded : WebhookEvent) (insight : Option Text) :
    (s.process n loaded insight).events.find event = s.events.find event := by
  rw [find_process]
  simp [Ne.symm hn]

/-- A run commits what it has to add. -/
theorem Tallied.process (h : s.Tallied k event cleared) (hr : s.runs[i]? = some r)
    {loaded row : WebhookEvent} {insight : Option Text} {phase : Option WebhookPhase}
    (hadding : r.phase = .adding loaded insight) (hfind : s.events.find r.event = some row)
    (hwork : ∀ p ∈ phase, p.work = none) :
    ((s.process r.event loaded insight).goes i r.event phase).Tallied k event cleared := by
  have hgoing : ((s.process r.event loaded insight).goes i r.event phase).going event +
      (if worksOn event r then 1 else 0) = (s.process r.event loaded insight).going event :=
    going_rest (s := s.process r.event loaded insight) hr hwork
  have hlt := lt_of_find h.rows hfind
  have hworks : worksOn event r = decide (r.event = event) := by
    unfold worksOn
    rw [hadding]
    exact Bool.and_true _
  rw [hworks] at hgoing
  by_cases hevent : r.event = event
  · have hclosed : ((s.process r.event loaded insight).goes i r.event phase).isOpen event = false := by
      show ((s.process r.event loaded insight).events.find event).any _ = false
      rw [find_process]
      cases s.events.find event with
      | none => rfl
      | some row => simp [hevent]
    -- the run was one of those at work, and leaves them with its one insight
    rw [if_pos (decide_eq_true hevent)] at hgoing
    refine ⟨?_, rows_updateAt h.rows r.event (fun row => { row with status := .processed }) fun _ => rfl,
      fun hmissing => ?_⟩
    · rw [hclosed]
      exact h.mark.finish (Nat.le_of_eq hgoing) (added_process_le ..)
    · have hle : s.nextEvent ≤ event := hmissing
      omega
  · have hsame : ((s.process r.event loaded insight).goes i r.event phase).isOpen event =
        s.isOpen event := by
      show ((s.process r.event loaded insight).events.find event).any _ = _
      rw [find_process_of_ne hevent]
      rfl
    have hgoingSame : ((s.process r.event loaded insight).goes i r.event phase).going event =
        s.going event := by
      rw [if_neg (by simpa using hevent)] at hgoing
      exact hgoing
    have hadded : ((s.process r.event loaded insight).goes i r.event phase).added event = s.added event :=
      added_process_of_ne hevent loaded insight
    refine ⟨?_, rows_updateAt h.rows r.event (fun row => { row with status := .processed }) fun _ => rfl,
      fun hmissing => ?_⟩
    · rw [hsame, hgoingSame, hadded]
      exact h.mark
    · rw [hgoingSame, hadded]
      exact h.missing hmissing

/-- An event that was not processed is open when an error is written. -/
theorem isOpen_recordError {n : Nat} {loaded : WebhookEvent} {error : Text} (hopen : s.isOpen event = true) :
    (s.recordError n loaded error).isOpen event = true := by
  obtain ⟨row, hfind, hstatus⟩ := isOpen_iff.mp hopen
  have hfind' : (s.recordError n loaded error).events.find event =
      some (if event = n then loaded.fail error row else row) := by
    rw [find_recordError, hfind]
    rfl
  refine isOpen_iff.mpr ⟨_, hfind', ?_⟩
  split
  next =>
    show (if loaded.status = .error then row.status else .error) ≠ .processed
    split
    next => exact hstatus
    next => simp
  next => exact hstatus

theorem find_of_isOpen_recordError {n : Nat} {loaded : WebhookEvent} {error : Text}
    (hopen : (s.recordError n loaded error).isOpen event = true) :
    ∃ row, s.events.find event = some row := by
  obtain ⟨row, hfind, _⟩ := isOpen_iff.mp hopen
  rw [find_recordError] at hfind
  obtain ⟨old, hold, _⟩ := Option.map_eq_some_iff.mp hfind
  exact ⟨old, hold⟩

/-- What a step leaves of the event, of its mark and of the runs. -/
theorem tallied_next (h : s.Tallied k event cleared) {e : WebhookInput} (he : AtOnce k event s e) :
    (next s e).Tallied k event (cleared + if reopens event s e then 1 else 0) := by
  rcases next_cases s e with ⟨users, requests, _, hnext⟩ | ⟨users, kept, hnext⟩ | ⟨i, request, _, _, hnext⟩ |
    ⟨n, row, rfl, hfind, hstatus, hnext⟩ | ⟨i, r, hr, hturns⟩
  · rw [hnext]
    have hsame : ({ s with users, requests } : Webhooks).Tallied k event cleared :=
      ⟨h.mark, h.rows, h.missing⟩
    exact hsame.mono _
  · rw [hnext]
    exact (h.delete users kept).mono _
  · rw [hnext]
    exact (h.store (s.requests.eraseIdx i) request).mono _
  · rw [hnext]
    exact (h.load hfind hstatus fun hn => he (by rw [hn])).mono _
  · have hreopens : reopens event s e = true ↔
        s.isOpen event = false ∧ (next s e).isOpen event = true ∧ event < s.nextEvent := by
      unfold reopens
      rw [Bool.and_eq_true, Bool.and_eq_true, Bool.not_eq_true', decide_eq_true_eq, and_assoc]
    generalize next s e = s' at hturns hreopens
    cases hturns with
    | goOn phase work =>
      have hgoes : (s.goes i r.event phase).Tallied k event cleared := by
        have hgoing : (s.goes i r.event phase).going event ≤ s.going event := going_goOn hr work
        refine ⟨h.mark.leave hgoing, h.rows, fun hmissing => ?_⟩
        obtain ⟨hadded, hnone⟩ := h.missing hmissing
        exact ⟨hadded, by omega⟩
      exact hgoes.mono _
    | process phase adding found work ends => exact (h.process hr adding found work).mono _
    | @recordError loaded error marking =>
      have hnone : ∀ p ∈ (none : Option WebhookPhase), ∀ row, p.work = some row → r.phase.work = some row :=
        fun p hp => absurd hp (by simp)
      have hgoing : ((s.recordError r.event loaded error).goes i r.event none).going event ≤ s.going event :=
        going_goOn (s := s.recordError r.event loaded error) hr hnone
      have hrows := rows_updateAt h.rows r.event (loaded.fail error) fun _ => rfl
      refine ⟨?_, hrows, fun hmissing => ?_⟩
      · have hleft := h.mark.leave hgoing
        show DoneMark k (!(s.recordError r.event loaded error).isOpen event) (s.added event) _ _
        -- a processed event comes to be open only by the error of a run that had loaded
        -- it before, and such a step is counted
        cases hopen : s.isOpen event with
        | true =>
          rw [hopen] at hleft
          rw [isOpen_recordError hopen]
          exact hleft.mono (Nat.le_add_right ..)
        | false =>
          rw [hopen] at hleft
          cases hopen' : (s.recordError r.event loaded error).isOpen event with
          | false => exact hleft.mono (Nat.le_add_right ..)
          | true =>
            obtain ⟨row, hfind⟩ := find_of_isOpen_recordError hopen'
            rw [if_pos (hreopens.mpr ⟨hopen, hopen', lt_of_find h.rows hfind⟩)]
            exact hleft.clear
      · obtain ⟨hadded, hnone⟩ := h.missing hmissing
        exact ⟨hadded, by omega⟩

theorem tallied_init : ({} : Webhooks).Tallied k event 0 :=
  ⟨doneMark_zero, fun _ hrow => absurd hrow List.not_mem_nil, fun _ => ⟨rfl, rfl⟩⟩

/-- An event leads to no more insights than runs of it are before their commit at
once, for each time that it was open. -/
theorem added_le {es : List WebhookInput} (h : Throughout next (AtOnce k event) {} es) :
    (run next {} es).added event ≤ k * (countSteps next (reopens event) {} es + 1) := by
  have hend : (run next {} es).Tallied k event (countSteps next (reopens event) {} es) := by
    refine run_history (fun es s => s.Tallied k event (countSteps next (reopens event) {} es))
      tallied_init (fun es e hs he => ?_) h
    rw [countSteps_append]
    exact tallied_next hs he
  exact hend.mark.le

/-- The reply to the first commit is lost, the event is set to `error`, and its job
is run again. -/
def lostReply : List WebhookInput :=
  [.addUser 1, .generate 1 7, .receive 7 "reminder".toList, .store 0, .load 0,
    .answer 0 (some "You plan ahead.".toList), .commit 0 .lost "connection was closed".toList, .reload 0,
    .mark 0 .answered, .load 0, .answer 0 (some "You like lists.".toList), .commit 0 .answered []]

theorem added_le_lost : (run next {} lostReply).added 0 ≤ 1 * (1 + 1) := by
  have hquiet : ∀ (s : Webhooks) (e : WebhookInput), (∀ event, e ≠ .load event) → AtOnce 1 0 s e :=
    fun s e hload h => absurd h (hload 0)
  exact added_le
    ⟨hquiet _ _ (by simp), hquiet _ _ (by simp), hquiet _ _ (by simp), hquiet _ _ (by simp),
      fun _ => by decide, hquiet _ _ (by simp), hquiet _ _ (by simp), hquiet _ _ (by simp),
      hquiet _ _ (by simp), fun _ => by decide, hquiet _ _ (by simp), hquiet _ _ (by simp), trivial⟩

/-- The event's runs do not overlap, and no reply to a commit is lost. -/
def OneByOne (event : Nat) (s : Webhooks) (e : WebhookInput) : Prop :=
  (e = .load event → ∀ r ∈ s.runs, r.event ≠ event) ∧
    ∀ i error, e = .commit i .lost error → ∀ r, s.runs[i]? = some r → r.event ≠ event

/-- What is known of the event when its runs come one by one. -/
structure Orderly (event : Nat) (s : Webhooks) : Prop where
  alone : s.runs.countP (fun r => r.event = event) ≤ 1
  unprocessed : ∀ r ∈ s.runs, r.event = event → ∀ row, s.events.find event = some row →
    row.status ≠ .processed
  once : s.added event ≤ 1
  fresh : ∀ row, s.events.find event = some row → row.status ≠ .processed → s.added event = 0
  rows : ∀ row ∈ s.events.list, row.id < s.nextEvent
  missing : s.nextEvent ≤ event → s.added event = 0

theorem mem_goes {n : Nat} {phase : Option WebhookPhase} {r' : WebhookRun}
    (h : r' ∈ (s.goes i n phase).runs) : r'.event = n ∨ r' ∈ s.runs.eraseIdx i := by
  rcases List.mem_append.mp h with hnew | hold
  · obtain ⟨p, _, rfl⟩ := Option.map_eq_some_iff.mp (Option.mem_toList.mp hnew)
    exact .inl rfl
  · exact .inr hold

/-- A run that goes on is one run at most. -/
theorem countP_goes_le (hr : s.runs[i]? = some r) (phase : Option WebhookPhase) :
    (s.goes i r.event phase).runs.countP (fun r => r.event = event) ≤
      s.runs.countP fun r => r.event = event := by
  show ((phase.map (WebhookRun.mk r.event)).toList ++ s.runs.eraseIdx i).countP _ ≤ _
  rw [(perm_runs hr).countP_eq, List.countP_append, List.countP_cons, Nat.add_comm]
  refine Nat.add_le_add_left ?_ _
  cases phase with
  | none => exact Nat.zero_le _
  | some p =>
    show [_].countP _ ≤ _
    rw [List.countP_singleton]

/-- What is done to the runs, rows and insights of other events. -/
theorem Orderly.change {s' : Webhooks} (h : s.Orderly event) (hr : s.runs[i]? = some r)
    (phase : Option WebhookPhase) (hruns : s'.runs = s.runs)
    (hfind : s'.events.find event = s.events.find event) (hadded : s'.added event = s.added event)
    (hrows : ∀ row ∈ s'.events.list, row.id < s'.nextEvent) (hnext : s'.nextEvent = s.nextEvent) :
    (s'.goes i r.event phase).Orderly event := by
  have hr' : s'.runs[i]? = some r := hruns ▸ hr
  refine ⟨Nat.le_trans (countP_goes_le hr' phase) (hruns ▸ h.alone), ?_, ?_, ?_, hrows, ?_⟩
  · intro r' hmem hevent row hrow
    have hrow' : s.events.find event = some row := hfind ▸ hrow
    rcases mem_goes hmem with hown | hold
    · exact h.unprocessed r (List.mem_of_getElem? hr) (hown.symm.trans hevent) row hrow'
    · rw [hruns] at hold
      exact h.unprocessed r' (List.mem_of_mem_eraseIdx hold) hevent row hrow'
  · show s'.added event ≤ 1
    rw [hadded]
    exact h.once
  · intro row hrow hstatus
    show s'.added event = 0
    rw [hadded]
    exact h.fresh row (hfind ▸ hrow) hstatus
  · intro hmissing
    show s'.added event = 0
    rw [hadded]
    exact h.missing (hnext ▸ hmissing)

/-- The only run of the event is no more. -/
theorem Orderly.not_mem (h : s.Orderly event) (hr : s.runs[i]? = some r) (hevent : r.event = event) :
    ∀ r' ∈ s.runs.eraseIdx i, r'.event ≠ event := by
  have halone := h.alone
  rw [(perm_runs hr).countP_eq, List.countP_cons, if_pos (decide_eq_true hevent)] at halone
  have hzero : (s.runs.eraseIdx i).countP (fun r => r.event = event) = 0 := by omega
  intro r' hr'
  simpa using List.countP_eq_zero.mp hzero r' hr'

theorem Orderly.process (h : s.Orderly event) (hr : s.runs[i]? = some r) (hevent : r.event = event)
    {row : WebhookEvent} (hfind : s.events.find event = some row) (loaded : WebhookEvent)
    (insight : Option Text) : ((s.process r.event loaded insight).goes i r.event none).Orderly event := by
  have hgone := h.not_mem hr hevent
  have hmem : ∀ r' ∈ ((s.process r.event loaded insight).goes i r.event none).runs, r' ∈ s.runs.eraseIdx i :=
    fun r' hr' => hr'
  have hadded : (s.process r.event loaded insight).added event ≤ s.added event + 1 := added_process_le ..
  -- the event was not processed while the run was there, so nothing was added yet
  have hzero := h.fresh row hfind (h.unprocessed r (List.mem_of_getElem? hr) hevent row hfind)
  refine ⟨?_, ?_, ?_, ?_, ?_, ?_⟩
  · exact Nat.le_trans (countP_goes_le (s := s.process r.event loaded insight) hr none) h.alone
  · exact fun r' hr' heq => absurd heq (hgone r' (hmem r' hr'))
  · show (s.process r.event loaded insight).added event ≤ 1
    omega
  · intro row' hrow' hstatus
    change (s.process r.event loaded insight).events.find event = some row' at hrow'
    rw [find_process, hfind, hevent] at hrow'
    obtain rfl := Option.some.inj hrow'
    exact absurd (by simp) hstatus
  · exact rows_updateAt h.rows r.event (fun row => { row with status := .processed }) fun _ => rfl
  · intro hmissing
    have hle : s.nextEvent ≤ event := hmissing
    have hlt := lt_of_find h.rows hfind
    omega

theorem Orderly.recordError (h : s.Orderly event) (hr : s.runs[i]? = some r) (hevent : r.event = event)
    (loaded : WebhookEvent) (error : Text) :
    ((s.recordError r.event loaded error).goes i r.event none).Orderly event := by
  have hgone := h.not_mem hr hevent
  have hmem : ∀ r' ∈ ((s.recordError r.event loaded error).goes i r.event none).runs,
      r' ∈ s.runs.eraseIdx i := fun r' hr' => hr'
  refine ⟨?_, ?_, h.once, ?_, ?_, h.missing⟩
  · exact Nat.le_trans (countP_goes_le (s := s.recordError r.event loaded error) hr none) h.alone
  · exact fun r' hr' heq => absurd heq (hgone r' (hmem r' hr'))
  · intro row' hrow' _
    change (s.recordError r.event loaded error).events.find event = some row' at hrow'
    rw [find_recordError] at hrow'
    obtain ⟨row, hfind, _⟩ := Option.map_eq_some_iff.mp hrow'
    exact h.fresh row hfind (h.unprocessed r (List.mem_of_getElem? hr) hevent row hfind)
  · exact rows_updateAt h.rows r.event (loaded.fail error) fun _ => rfl

/-- A new row is pending, and no other event's. -/
theorem Orderly.store (h : s.Orderly event) (requests : List WebhookRequest) (request : WebhookRequest) :
    { s with
      requests
      events := s.events.insert
        { id := s.nextEvent, userId := request.userId, eventType := request.eventType }
      nextEvent := s.nextEvent + 1 }.Orderly event := by
  by_cases hevent : event = s.nextEvent
  · have hzero := h.missing (Nat.le_of_eq hevent.symm)
    have hnew : ∀ row, (s.events.insert
        { id := s.nextEvent, userId := request.userId, eventType := request.eventType }).find event =
        some row → row.status ≠ .processed := by
      intro row hrow
      obtain ⟨hmem, hid⟩ := Rows.find_eq_some.mp hrow
      rcases Rows.mem_of_mem_insert hmem with hold | rfl
      · have hlt := h.rows row hold
        omega
      · simp
    refine ⟨h.alone, fun r _ _ row hrow => hnew row hrow, h.once, fun _ _ _ => hzero, ?_, fun _ => hzero⟩
    exact rows_insert h.rows _
  · have hfind : (s.events.insert
        { id := s.nextEvent, userId := request.userId, eventType := request.eventType }).find event =
        s.events.find event := Rows.find_insert_of_ne hevent
    refine ⟨h.alone, ?_, h.once, ?_, rows_insert h.rows _,
      fun hmissing => h.missing (Nat.le_of_succ_le hmissing)⟩
    · intro r hr heq row hrow
      exact h.unprocessed r hr heq row (hfind ▸ hrow)
    · intro row hrow
      exact h.fresh row (hfind ▸ hrow)

/-- The run that begins is the only one of its event. -/
theorem Orderly.load (h : s.Orderly event) {n : Nat} {row : WebhookEvent}
    (hfind : s.events.find n = some row) (hstatus : row.status ≠ .processed)
    (hnone : n = event → ∀ r ∈ s.runs, r.event ≠ event) :
    { s with runs := ⟨n, .asking row⟩ :: s.runs }.Orderly event := by
  refine ⟨?_, ?_, h.once, h.fresh, h.rows, h.missing⟩
  · show (_ :: s.runs).countP _ ≤ 1
    by_cases hn : n = event
    · have hzero : s.runs.countP (fun r => r.event = event) = 0 := by
        rw [List.countP_eq_zero]
        intro r hr
        simpa using hnone hn r hr
      rw [List.countP_cons, hzero]
      split <;> omega
    · rw [List.countP_cons_of_neg (by simpa using hn)]
      exact h.alone
  · intro r hr heq row' hrow'
    rcases List.mem_cons.mp hr with rfl | hold
    · rw [← heq] at hrow'
      obtain rfl := Option.some.inj (hfind.symm.trans hrow')
      exact hstatus
    · exact h.unprocessed r hold heq row' hrow'

theorem Orderly.turn (h : s.Orderly event) {s' : Webhooks} (hr : s.runs[i]? = some r)
    (hturns : Turns s e i r s') (hlost : ∀ error, e = .commit i .lost error → r.event ≠ event) :
    s'.Orderly event := by
  cases hturns with
  | goOn phase work => exact h.change hr phase rfl rfl rfl h.rows rfl
  | @process loaded row insight phase adding found work ends =>
    by_cases hevent : r.event = event
    -- the run goes on after its commit only if the reply was lost
    · have hphase : phase = none := by
        rcases ends with hnone | ⟨error, heq⟩
        · exact hnone
        · exact absurd hevent (hlost error heq)
      rw [hphase]
      exact h.process hr hevent (hevent ▸ found) loaded insight
    · exact h.change hr phase rfl (find_process_of_ne hevent loaded insight)
        (added_process_of_ne hevent loaded insight)
        (rows_updateAt h.rows r.event (fun row => { row with status := .processed }) fun _ => rfl) rfl
  | @recordError loaded error marking =>
    by_cases hevent : r.event = event
    · exact h.recordError hr hevent loaded error
    · have hfind : (s.recordError r.event loaded error).events.find event = s.events.find event := by
        rw [find_recordError]
        simp [Ne.symm hevent]
      exact h.change hr none rfl hfind rfl
        (rows_updateAt h.rows r.event (loaded.fail error) fun _ => rfl) rfl

theorem orderly_next (h : s.Orderly event) {e : WebhookInput} (he : OneByOne event s e) :
    (next s e).Orderly event := by
  rcases next_cases s e with ⟨users, requests, _, hnext⟩ | ⟨users, kept, hnext⟩ | ⟨i, request, _, _, hnext⟩ |
    ⟨n, row, rfl, hfind, hstatus, hnext⟩ | ⟨i, r, hr, hturns⟩
  · rw [hnext]
    exact ⟨h.alone, h.unprocessed, h.once, h.fresh, h.rows, h.missing⟩
  · rw [hnext]
    have hfind : ∀ row, (s.events.filter kept).find event = some row → s.events.find event = some row := by
      intro row hrow
      obtain ⟨hmem, hid⟩ := Rows.find_eq_some.mp hrow
      exact Rows.find_eq_some.mpr ⟨List.mem_of_mem_filter hmem, hid⟩
    refine ⟨h.alone, fun r hr heq row hrow => h.unprocessed r hr heq row (hfind row hrow), h.once,
      fun row hrow => h.fresh row (hfind row hrow), fun row hrow => h.rows row (List.mem_of_mem_filter hrow),
      h.missing⟩
  · rw [hnext]
    exact h.store _ _
  · rw [hnext]
    exact h.load hfind hstatus fun hn => he.1 (hn ▸ rfl)
  · exact h.turn hr hturns fun error heq => he.2 i error heq r hr

theorem orderly_init : ({} : Webhooks).Orderly event where
  alone := Nat.zero_le _
  unprocessed _ hr := absurd hr List.not_mem_nil
  once := Nat.zero_le _
  fresh _ _ _ := rfl
  rows _ hrow := absurd hrow List.not_mem_nil
  missing _ := rfl

/-- A worker goes down while the model is asked, and the job is run again. -/
def runAgain : List WebhookInput :=
  [.addUser 1, .generate 1 7, .receive 7 "reminder".toList, .store 0, .load 0, .crash 0, .load 0,
    .answer 0 (some "You plan ahead.".toList), .commit 0 .answered [], .load 0]

/-- The request was let in. -/
def LetIn (es : List WebhookInput) (r : WebhookRequest) : Prop :=
  ∃ early e mid, es = early ++ e :: mid ∧ Admitted (run next {} early) e r

/-- The event was stored for a request of the user that was let in. -/
def Received (es : List WebhookInput) (event user : Nat) : Prop :=
  ∃ before i rest r, es = before ++ .store i :: rest ∧ (run next {} before).nextEvent = event ∧
    (run next {} before).requests[i]? = some r ∧ r.userId = user ∧ LetIn before r

theorem LetIn.more {es : List WebhookInput} {r : WebhookRequest} (h : LetIn es r) (e : WebhookInput) :
    LetIn (es ++ [e]) r := by
  obtain ⟨early, e₀, mid, rfl, hadmitted⟩ := h
  exact ⟨early, e₀, mid ++ [e], by simp, hadmitted⟩

theorem Received.more {es : List WebhookInput} {user : Nat} (h : Received es event user) (e : WebhookInput) :
    Received (es ++ [e]) event user := by
  obtain ⟨before, i, rest, r, rfl, hstored⟩ := h
  exact ⟨before, i, rest ++ [e], r, by simp, hstored⟩

/-- Where all that there is comes from. -/
structure Sourced (es : List WebhookInput) (s : Webhooks) : Prop where
  requests : ∀ r ∈ s.requests, LetIn es r
  events : ∀ row ∈ s.events.list, Received es row.id row.userId
  runs : ∀ r ∈ s.runs, ∀ row, r.phase.work = some row → Received es r.event row.userId
  insights : ∀ i ∈ s.insights, Received es i.event i.userId

theorem received_updateAt {es : List WebhookInput} (h : ∀ row ∈ s.events.list, Received es row.id row.userId)
    (n : Nat) (f : WebhookEvent → WebhookEvent) (hf : ∀ row, (f row).id = row.id)
    (huser : ∀ row, (f row).userId = row.userId) :
    ∀ row ∈ (s.events.updateAt n f hf).list, Received es row.id row.userId := by
  intro row hrow
  obtain ⟨old, hold, rfl⟩ := List.mem_map.mp hrow
  split
  next =>
    rw [hf, huser]
    exact h old hold
  next => exact h old hold

theorem runs_goes {es : List WebhookInput} (h : ∀ r ∈ s.runs, ∀ row, r.phase.work = some row →
    Received es r.event row.userId) (hr : s.runs[i]? = some r) {phase : Option WebhookPhase}
    (hwork : ∀ p ∈ phase, ∀ row, p.work = some row → r.phase.work = some row) :
    ∀ r' ∈ (s.goes i r.event phase).runs, ∀ row, r'.phase.work = some row →
      Received es r'.event row.userId := by
  intro r' hr' row hrow
  rcases List.mem_append.mp hr' with hnew | hold
  · obtain ⟨p, hp, rfl⟩ := Option.map_eq_some_iff.mp (Option.mem_toList.mp hnew)
    exact h r (List.mem_of_getElem? hr) row (hwork p hp row hrow)
  · exact h r' (List.mem_of_mem_eraseIdx hold) row hrow

theorem sourced_next {es : List WebhookInput} (h : Sourced es (run next {} es)) (e : WebhookInput) :
    Sourced (es ++ [e]) (next (run next {} es) e) := by
  have hrequests := fun r hr => (h.requests r hr).more e
  have hevents := fun row hrow => (h.events row hrow).more e
  have hruns := fun r hr row hrow => (h.runs r hr row hrow).more e
  have hinsights := fun i hi => (h.insights i hi).more e
  rcases next_cases (run next {} es) e with ⟨users, requests, hadmitted, hnext⟩ | ⟨users, kept, hnext⟩ |
    ⟨i, request, rfl, hrequest, hnext⟩ | ⟨n, row, rfl, hfind, _, hnext⟩ | ⟨i, r, hr, hturns⟩
  · rw [hnext]
    refine ⟨fun r hr => ?_, hevents, hruns, hinsights⟩
    rcases hadmitted r hr with hold | hnew
    · exact hrequests r hold
    · exact ⟨es, e, [], rfl, hnew⟩
  · rw [hnext]
    exact ⟨hrequests, fun row hrow => hevents row (List.mem_of_mem_filter hrow), hruns, hinsights⟩
  · rw [hnext]
    refine ⟨fun r hr => hrequests r (List.mem_of_mem_eraseIdx hr), ?_, hruns, hinsights⟩
    intro row hrow
    rcases Rows.mem_of_mem_insert hrow with hold | rfl
    · exact hevents row hold
    · exact ⟨es, i, [], request, rfl, rfl, hrequest, rfl, h.requests request (List.mem_of_getElem? hrequest)⟩
  · rw [hnext]
    refine ⟨hrequests, hevents, ?_, hinsights⟩
    intro r hr row' hrow'
    rcases List.mem_cons.mp hr with rfl | hold
    · obtain rfl := Option.some.inj hrow'
      obtain ⟨hmem, hid⟩ := Rows.find_eq_some.mp hfind
      exact hid ▸ hevents row hmem
    · exact hruns r hold row' hrow'
  -- a run hands its user on from the row that it has loaded, and `updateAt` keeps users
  · generalize next (run next {} es) e = s' at hturns
    cases hturns with
    | goOn phase work => exact ⟨hrequests, hevents, runs_goes hruns hr work, hinsights⟩
    | @process loaded row insight phase adding found work ends =>
      refine ⟨hrequests, ?_, ?_, ?_⟩
      · exact received_updateAt hevents r.event (fun row => { row with status := .processed }) (fun _ => rfl)
          fun _ => rfl
      · exact runs_goes (s := (run next {} es).process r.event loaded insight) hruns hr fun p hp row hrow =>
          absurd ((work p hp).symm.trans hrow) (by simp)
      · intro i hi
        rcases List.mem_append.mp hi with hnew | hold
        · obtain ⟨content, _, rfl⟩ := Option.map_eq_some_iff.mp (Option.mem_toList.mp hnew)
          exact hruns r (List.mem_of_getElem? hr) loaded (by rw [adding]; rfl)
        · exact hinsights i hold
    | @recordError loaded error marking =>
      refine ⟨hrequests, ?_, ?_, hinsights⟩
      · exact received_updateAt hevents r.event (loaded.fail error) (fun _ => rfl) fun _ => rfl
      · exact runs_goes (s := (run next {} es).recordError r.event loaded error) hruns hr fun p hp =>
          absurd hp (by simp)

/-- However requests, runs and changes of users come between each other, an insight
is for the user whose token its event was sent to, and who was active then. -/
theorem insight_received {es : List WebhookInput} {insight : WebhookInsight}
    (h : insight ∈ (run next {} es).insights) : Received es insight.event insight.userId := by
  have hend : Sourced es (run next {} es) := by
    refine run_history (P := fun _ _ => True) Sourced ?_ (fun es e hs _ => sourced_next hs e)
      (throughout_of_forall fun _ _ => trivial)
    exact ⟨fun _ hr => absurd hr List.not_mem_nil, fun _ hrow => absurd hrow List.not_mem_nil,
      fun _ hr => absurd hr List.not_mem_nil, fun _ hi => absurd hi List.not_mem_nil⟩
  exact hend.insights insight h

/-- The token is given up as soon as the event is stored. -/
def revokedLater : List WebhookInput :=
  [.addUser 1, .generate 1 7, .receive 7 "reminder".toList, .store 0, .revoke 1, .load 0,
    .answer 0 (some "You plan ahead.".toList), .commit 0 .answered []]

theorem insight_received_revoked : Received revokedLater 0 1 :=
  insight_received (show ⟨1, "You plan ahead.".toList, 0⟩ ∈ (run next {} revokedLater).insights from
    List.mem_singleton_self _)

end Webhooks

end Eidetic.Jobs
