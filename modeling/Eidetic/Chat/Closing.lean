import Eidetic.Chat.Agreement

/-!
# How the route closes a turn

What is left in the database session when the events of a turn are over: the
user's message, unless a tool has ended its transaction, and the assistant's,
unless it is not saved. Every exit of the route closes the session in one of
three ways (`eventGenerator_closes`).

The tools share the session, and each execution may end its transaction: by a
commit or rollback of the tool's own, or by the rollback after a rejected row of
its log. `Executed` is what so many executions make of the session, a list of
such ends. Of them only the first matters to the user's message
(`Executed.first`), which is why the results speak of the first end alone.

`Closes` has one case for each way in which the events of a turn are over: with
a `done` event, with an error event, or with an exception that the route
handles. Each says what the route then tries to save, and what becomes of it is
the `Closing`: saved with what is pending, saved alone after a rollback, or
lost. The failures are all in `RouteWorld`: a refused save or note, and a
rollback that raises itself. The exception of that reaches the outer handler,
which tries its own note (`error_session`, `onDone_session`). `Chat.Metering`
and `Chat.Persistence` read their results off the closing.
-/

namespace Eidetic.Chat

open Eidetic.Lib Eidetic.Py Eidetic.Stream

/-! ## What the tools do to the session -/

/-- How an execution ends the transaction of the route, if at all. -/
def RouteWorld.endsOf (x : RouteWorld) (i : Nat) : List TxEnd :=
  x.toolEnds i ++ if x.logged i then [] else [.rollback]

/-- The exception of the rollback leaves `run_tool`. -/
def RouteWorld.raisesAt (x : RouteWorld) (i : Nat) : Bool := !x.logged i && x.logRollbackRaises i

/-- How the first executions end the transaction. -/
def RouteWorld.ends (x : RouteWorld) (executions : Nat) : List TxEnd :=
  (List.range executions).flatMap x.endsOf

def RouteWorld.raises (x : RouteWorld) (executions : Nat) : Bool :=
  (List.range executions).any x.raisesAt

variable {x : RouteWorld} {s : Route}

theorem onExecute_eq (s : Route) :
    s.onExecute x = ({ s with
      executions := s.executions + 1, session := s.session.finishAll (x.endsOf s.executions) },
      x.raisesAt s.executions) := by
  unfold Route.onExecute RouteWorld.endsOf RouteWorld.raisesAt
  dsimp only
  cases x.logged s.executions with
  | true => simp
  | false =>
    rw [TxSession.finishAll_append]
    rfl

/-- After an exception nothing is left that an end could change. -/
theorem endsOf_raises {i : Nat} (h : x.raisesAt i = true) (session : TxSession Row) :
    (session.finishAll (x.endsOf i)).pending = [] := by
  unfold RouteWorld.raisesAt at h
  rw [Bool.and_eq_true, Bool.not_eq_true'] at h
  rw [RouteWorld.endsOf, h.1, TxSession.finishAll_append]
  exact TxSession.finish_pending _ .rollback

/-- Progress leaves the session alone. -/
theorem onEvent_keeps {e : StreamEvent} (he : e.isProgress = true) (s : Route) :
    ∃ accumulated activity sent,
      s.onEvent x (toDict e) = ({ s with accumulated, activity, sent }, false) := by
  induction e, he using StreamEvent.progress_cases with
  | status stage detail level ms => exact ⟨_, _, _, rfl⟩
  | token t => exact ⟨_, _, _, onEvent_token s t⟩
  | preambleDiscard => exact ⟨_, _, _, rfl⟩
  | toolCall name args => exact ⟨_, _, _, rfl⟩
  | toolResult name content => exact ⟨_, _, _, rfl⟩

/-- What so many executions make of the session. -/
structure Executed (x : RouteWorld) (s : Route) (executions : Nat) (s' : Route) (raised : Bool) :
    Prop where
  session : s'.session
    = s.session.finishAll ((List.range' s.executions executions).flatMap x.endsOf)
  raised : raised = (List.range' s.executions executions).any x.raisesAt
  turnRecorded : s'.turnRecorded = s.turnRecorded

theorem Executed.first {executions : Nat} {s₁ s' : Route} {raised : Bool}
    (hexecute : s.onExecute x = (s₁, false)) (h : Executed x s₁ executions s' raised) :
    Executed x s (executions + 1) s' raised := by
  rw [onExecute_eq] at hexecute
  obtain ⟨rfl, hfirst⟩ := Prod.mk.inj hexecute
  refine ⟨?_, ?_, h.turnRecorded⟩
  · rw [List.range'_succ, List.flatMap_cons, TxSession.finishAll_append]
    exact h.session
  · rw [List.range'_succ, List.any_cons, hfirst, Bool.false_or]
    exact h.raised

theorem Executed.last {s' : Route} (hexecute : s.onExecute x = (s', true)) (more : Nat) :
    Executed x s (more + 1) s' true := by
  rw [onExecute_eq] at hexecute
  obtain ⟨rfl, hraises⟩ := Prod.mk.inj hexecute
  refine ⟨?_, ?_, rfl⟩
  · rw [List.range'_succ, List.flatMap_cons, TxSession.finishAll_append,
      TxSession.finishAll_of_empty (endsOf_raises hraises _)]
  · rw [List.range'_succ, List.any_cons, hraises, Bool.true_or]

theorem run_executed {log : List Action} (hlog : ∀ e ∈ eventsOf log, e.isProgress = true) :
    Executed x s (executionsOf log).length (Route.run x log s).1 (Route.run x log s).2 := by
  induction log generalizing s with
  | nil => exact ⟨rfl, rfl, rfl⟩
  | cons a log ih =>
    have hrest : ∀ e ∈ eventsOf log, e.isProgress = true :=
      fun e he => hlog e (mem_eventsOf_cons a he)
    cases a with
    | emit e =>
      have he : e.isProgress = true := hlog e (mem_eventsOf.mpr (List.mem_cons_self ..))
      obtain ⟨accumulated, activity, sent, hs'⟩ := onEvent_keeps (x := x) he s
      have hact : s.act x (.emit e) = ({ s with accumulated, activity, sent }, false) := hs'
      rw [Route.run, hact]
      obtain ⟨hsession, hraised, hrecorded⟩ :=
        ih (s := { s with accumulated, activity, sent }) hrest
      exact ⟨hsession, hraised, hrecorded⟩
    -- each execution ends a transaction of the session; a rollback that raises is the last
    | execute name args result =>
      have hcount : (executionsOf (.execute name args result :: log)).length
          = (executionsOf log).length + 1 := rfl
      rw [hcount]
      cases hact : s.onExecute x with
      | mk s' raised =>
        cases raised with
        | false =>
          have hrun : Route.run x (.execute name args result :: log) s = Route.run x log s' := by
            rw [Route.run, Route.act, hact]
          rw [hrun]
          exact Executed.first hact (ih hrest)
        | true =>
          have hrun : Route.run x (.execute name args result :: log) s = (s', true) := by
            rw [Route.run, Route.act, hact]
          rw [hrun]
          exact Executed.last hact _
    | attempt model => exact ih hrest
    | call model messages tools => exact ih hrest
    | usage items => exact ih hrest
    | request tc => exact ih hrest
    | cache response model => exact ih hrest

/-! ## The last transaction -/

/-- What becomes of the session when the turn is over: the last row is saved
with what is pending, or alone after a rollback, or nothing more is. -/
inductive Closing
  | saved (row : Row)
  | alone (row : Row)
  | lost

def Closing.apply (session : TxSession Row) : Closing → TxSession Row
  | .saved row => (session.add row).commit
  | .alone row => (session.rollback.add row).commit
  | .lost => session.rollback

/-- The closing of a turn that an exception ends. -/
def RouteWorld.aborts (x : RouteWorld) : Closing :=
  if x.handlerNoted then .saved (.assistant none) else .lost

/-- The closing after a rollback: the handler of an exception that it raises
still leaves a note. -/
def RouteWorld.undoneBy (x : RouteWorld) (rollbackRaises : Bool) : Closing :=
  if rollbackRaises && x.handlerNoted then .alone (.assistant none) else .lost

/-- The closing after a failed save. -/
def RouteWorld.undoes (x : RouteWorld) : Closing := x.undoneBy x.saveRollbackRaises

/-- The closing of a turn that ends with its error event. -/
def RouteWorld.fails (x : RouteWorld) : Closing :=
  if x.noted then .saved (.assistant none) else x.undoneBy x.noteRollbackRaises

/-- The closing at the `done` event. -/
def RouteWorld.saves (x : RouteWorld) : Option Metering → Closing
  | some metering => if x.saved then .saved (.assistant (some metering)) else x.undoes
  | none => x.undoes

/-- Prompt and completion tokens. -/
abbrev Tokens := Rat × Rat

def Metering.tokens (m : Metering) : Tokens := (m.promptTokens, m.completionTokens)

/-- The tokens of a response as they are estimated. -/
def RouteWorld.estimated (x : RouteWorld) (response : Text) : Tokens :=
  ((estimateTokens x.promptTexts : Nat), (response.length / 4 : Nat))

/-- The tokens a response is charged for, `none` where a count is no number. -/
def RouteWorld.charged (x : RouteWorld) (usage : Usage) (response : Text) : Option Tokens :=
  if usage.isEmpty then some (x.estimated response)
  else
    match tokensOf usage "prompt_tokens", tokensOf usage "completion_tokens" with
    | some prompt, some completion => some (prompt, completion)
    | _, _ => none

/-- The counts of the record are numbers, or there is no record. -/
def countable (usage : Usage) : Bool :=
  usage.isEmpty
    || ((tokensOf usage "prompt_tokens").isSome && (tokensOf usage "completion_tokens").isSome)

theorem charged_isSome (x : RouteWorld) (usage : Usage) (text : Text) :
    (x.charged usage text).isSome = countable usage := by
  unfold RouteWorld.charged countable
  cases usage.isEmpty with
  | true => rfl
  | false =>
    rw [if_neg (by simp), Bool.false_or]
    cases tokensOf usage "prompt_tokens" with
    | none => rfl
    | some prompt =>
      cases tokensOf usage "completion_tokens" with
      | none => rfl
      | some completion => rfl

/-- The turn comes to the saving of its answer. -/
def RouteWorld.comesToSave (x : RouteWorld) (ending : Ending) (log : List Action) : Bool :=
  !x.raises (executionsOf log).length && (response ending).isSome

/-- The answer of the turn is saved with its cost. -/
def RouteWorld.isCharged (x : RouteWorld) (ending : Ending) (log : List Action) : Bool :=
  x.comesToSave ending log && countable ((reports log).getLastD []) && x.saved

def isFailed : Ending → Bool
  | .failed => true
  | _ => false

/-- The turn comes to its error event. -/
def RouteWorld.comesToError (x : RouteWorld) (ending : Ending) (log : List Action) : Bool :=
  !x.raises (executionsOf log).length && isFailed ending

/-- The ways in which a turn can be closed. -/
inductive Closes (x : RouteWorld) (ending : Ending) (log : List Action) : Closing → Prop
  | aborted (comes : x.comesToSave ending log = false) (fails : x.comesToError ending log = false) :
      Closes x ending log x.aborts
  | failed (comes : x.comesToSave ending log = false) (fails : x.comesToError ending log = true) :
      Closes x ending log x.fails
  | done (text : Text) (metering : Option Metering) (comes : x.comesToSave ending log = true)
      (response_eq : response ending = some text)
      (charged_eq : metering.map Metering.tokens
        = x.charged ((reports log).getLastD []) text) :
      Closes x ending log (x.saves metering)

theorem getItem_usage (d : DoneEvent) :
    getItem (toDict (.done d)) "usage" = if d.usage.isEmpty then none else some (.obj d.usage) := by
  obtain ⟨model, cacheHit, fallbackUsed, webSearched, urlFetched, driveRead, usage⟩ := d
  cases driveRead with
  | none => cases usage <;> simp [toDict, doneDict, dict, getItem, List.lookup_cons]
  | some read => cases usage <;> simp [toDict, doneDict, dict, getItem, List.lookup_cons]

theorem calculateTokens_done (price : Rat → Rat → Rat) (d : DoneEvent) (fullResponse : Text) :
    (calculateTokens price (toDict (.done d)) x.promptTexts fullResponse).map Metering.tokens
      = x.charged d.usage fullResponse := by
  unfold calculateTokens RouteWorld.charged
  rw [getItem_usage]
  cases d.usage with
  | nil => rfl
  | cons item usage =>
    dsimp only [List.isEmpty_cons]
    rw [if_neg (by simp), if_neg (by simp)]
    dsimp only
    cases tokensOf (item :: usage) "prompt_tokens" with
    | none => rfl
    | some prompt =>
      cases tokensOf (item :: usage) "completion_tokens" with
      | none => rfl
      | some completion => rfl

/-- A note is saved with what is pending, or what is pending is rolled back. -/
theorem persistAbort_eq {text : Text} (hjoin : joinTexts s.accumulated = some text)
    (h : s.turnRecorded = false) (accepted rollbackRaises : Bool) :
    s.persistAbort accepted rollbackRaises
      = if accepted then
          ({ s with session := (s.session.add (.assistant none)).commit, turnRecorded := true },
            false)
        else ({ s with session := s.session.rollback }, rollbackRaises) := by
  unfold Route.persistAbort
  dsimp only
  rw [h, if_neg (by simp), hjoin]

theorem internalError_session {text : Text} (hjoin : joinTexts s.accumulated = some text)
    (h : s.turnRecorded = false) :
    (s.internalError x).session = x.aborts.apply s.session := by
  have hnote := persistAbort_eq (s := s.send (dict [("type", .str "error".toList),
    ("message", .str "Internal server error".toList)])) hjoin h x.handlerNoted false
  unfold Route.internalError RouteWorld.aborts
  rw [hnote]
  cases x.handlerNoted with
  | true => rfl
  | false => rfl

/-- The session after an exception is handled, if there is one. -/
def sessionAfter (x : RouteWorld) : Route × Bool → TxSession Row
  | (s, true) => (s.internalError x).session
  | (s, false) => s.session

/-- After a rollback only the note of a handler can be left. -/
theorem sessionAfter_undone {text : Text} (hjoin : joinTexts s.accumulated = some text)
    (h : s.turnRecorded = false) (rollbackRaises : Bool) :
    sessionAfter x ({ s with session := s.session.rollback }, rollbackRaises)
      = (x.undoneBy rollbackRaises).apply s.session := by
  unfold RouteWorld.undoneBy
  cases rollbackRaises with
  | false => rfl
  | true =>
    have habort : (Route.internalError x { s with session := s.session.rollback }).session
        = x.aborts.apply s.session.rollback :=
      internalError_session (s := { s with session := s.session.rollback }) hjoin h
    change (Route.internalError x { s with session := s.session.rollback }).session = _
    rw [habort]
    unfold RouteWorld.aborts
    cases x.handlerNoted with
    | true => rfl
    | false => rfl

/-- The error event closes the session, with the handler of its exception. -/
theorem error_session {text : Text} (hjoin : joinTexts s.accumulated = some text)
    (h : s.turnRecorded = false) :
    sessionAfter x (s.persistAbort x.noted x.noteRollbackRaises) = x.fails.apply s.session := by
  rw [persistAbort_eq hjoin h]
  unfold RouteWorld.fails
  cases x.noted with
  | true => rfl
  | false => exact sessionAfter_undone hjoin h x.noteRollbackRaises

theorem save_session {text : Text} (hjoin : joinTexts s.accumulated = some text)
    (h : s.turnRecorded = false) (event : Dict) (fullResponse : Text) :
    sessionAfter x ((s.save x event fullResponse).1, (s.save x event fullResponse).2.2)
      = (x.saves (calculateTokens (x.price s.modelUsed) event x.promptTexts fullResponse)).apply
          s.session := by
  have hundone := sessionAfter_undone (x := x) hjoin h x.saveRollbackRaises
  have hrecorded : ∀ session : TxSession Row, session.pending = [] →
      sessionAfter x ({ s with session := session.rollback, turnRecorded := true },
        x.saveRollbackRaises) = session := by
    intro session hempty
    have hrollback : session.rollback = session := TxSession.finish_of_empty hempty .rollback
    cases x.saveRollbackRaises with
    | false => exact hrollback
    | true => exact hrollback
  unfold Route.save RouteWorld.saves
  dsimp only
  split
  next hnone => rw [hnone]; exact hundone
  next metering hmetering =>
    rw [hmetering]
    dsimp only
    cases x.saved with
    | false => exact hundone
    | true =>
      cases x.followedUp with
      | true => rfl
      | false => exact hrecorded _ rfl

theorem suggest_session (x : RouteWorld) (s : Route) : (s.suggest x).session = s.session := by
  unfold Route.suggest
  split
  next => rfl
  next => rfl

/-- A `done` event closes the session, with the handler of its exception. -/
theorem onDone_session {text : Text} (hjoin : joinTexts s.accumulated = some text)
    (h : s.turnRecorded = false) (d : DoneEvent) :
    ∃ metering, metering.map Metering.tokens = x.charged d.usage text ∧
      sessionAfter x (s.onDone x (toDict (.done d))) = (x.saves metering).apply s.session := by
  refine ⟨_, calculateTokens_done (x.price (modelOf (toDict (.done d)))) d text, ?_⟩
  have hsave := save_session (x := x)
    (s := { s with modelUsed := modelOf (toDict (.done d)), fullResponse := some text }) hjoin h
    (toDict (.done d)) text
  unfold Route.onDone
  dsimp only
  rw [hjoin]
  dsimp only
  split
  next s' event' heq =>
    rw [heq] at hsave
    exact hsave
  next s' event' heq =>
    rw [heq] at hsave
    exact (suggest_session x s').trans hsave

/-! ## The whole turn -/

theorem InStep.joined {n : Numerals} {texts : List Text} (h : InStep n texts s) :
    joinTexts s.accumulated = some texts.flatten := by
  rw [h.accumulated, joinTexts_map]

theorem run_begin {log : List Action} (x : RouteWorld)
    (hlog : ∀ e ∈ eventsOf log, e.isProgress = true) :
    (Route.run x log (Route.begin x)).1.session
        = (TxSession.add {} Row.user).finishAll (x.ends (executionsOf log).length) ∧
      (Route.run x log (Route.begin x)).2 = x.raises (executionsOf log).length ∧
      (Route.run x log (Route.begin x)).1.turnRecorded = false ∧
      ∃ text, joinTexts (Route.run x log (Route.begin x)).1.accumulated = some text := by
  obtain ⟨hsession, hraised, hrecorded⟩ := run_executed (x := x) (s := Route.begin x) hlog
  obtain ⟨⟨kept, hkept⟩, -⟩ := (inStep_begin digitNumerals x).run (x := x) hlog
  rw [RouteWorld.ends, RouteWorld.raises, List.range_eq_range']
  exact ⟨hsession, hraised, hrecorded, _, hkept.joined⟩

theorem eventGenerator_of_run {ending : Ending} {log : List Action} (hending : ending ≠ .raised) :
    (eventGenerator x ending log).session
      = sessionAfter x (Route.run x log (Route.begin x)) := by
  unfold eventGenerator
  split
  next s heq => rw [heq]; rfl
  next s heq =>
    rw [heq]
    cases ending with
    | raised => exact absurd rfl hending
    | answered text model => rfl
    | asked => rfl
    | failed => rfl

/-- Control events are only sent. -/
theorem run_control {control : List StreamEvent}
    (hcontrol : ∀ e ∈ control, ∃ type ∈ forwardedTypes, Typed type (toDict e)) (s : Route) :
    ∃ sent, Route.run x (control.map .emit) s = ({ s with sent }, false) := by
  induction control generalizing s with
  | nil => exact ⟨_, rfl⟩
  | cons e control ih =>
    obtain ⟨type, htype, htyped⟩ := hcontrol e (List.mem_cons_self ..)
    have hact : s.act x (.emit e) = (s.send (toDict e), false) := onEvent_forwarded htyped htype s
    obtain ⟨sent, hsent⟩ :=
      ih (fun e' he' => hcontrol e' (List.mem_cons_of_mem _ he')) (s.send (toDict e))
    exact ⟨sent, by rw [List.map_cons, Route.run, hact]; exact hsent⟩

theorem closes_done {ending : Ending} {log before : List Action} {d : DoneEvent} (x : RouteWorld)
    (control : List StreamEvent)
    (hlog : log = before ++ (control.map .emit ++ [.emit (.done d)]))
    (hprogress : ∀ e ∈ eventsOf before, e.isProgress = true)
    (hcontrol : ∀ e ∈ control, ∃ type ∈ forwardedTypes, Typed type (toDict e))
    (hresponse : response ending = some (held (eventsOf before)).flatten)
    (husage : d.usage = (reports log).getLastD []) :
    ∃ closing, Closes x ending log closing ∧ (eventGenerator x ending log).session
      = closing.apply ((TxSession.add {} .user).finishAll (x.ends (executionsOf log).length)) := by
  have hending : ending ≠ .raised := by
    rintro rfl
    exact absurd hresponse (by simp [response])
  -- control events and `done` execute nothing, so the executions are those before
  have hcount : (executionsOf log).length = (executionsOf before).length := by
    have hcontrols : executionsOf (control.map .emit ++ [.emit (.done d)]) = [] := by
      rw [executionsOf_append]
      simp [executionsOf, List.filterMap_map]
    rw [hlog, executionsOf_append, hcontrols, List.append_nil]
  obtain ⟨hsession, hraised, hrecorded, text, hjoin⟩ := run_begin x hprogress
  obtain ⟨-, hstep⟩ := (inStep_begin digitNumerals x).run (x := x) hprogress
  rw [eventGenerator_of_run hending, hcount]
  cases hraises : x.raises (executionsOf before).length with
  | true =>
    -- the route breaks off within `before`, and the outer handler notes the error
    have hrun : Route.run x log (Route.begin x) = Route.run x before (Route.begin x) := by
      rw [hlog, Route.run_append, if_pos (hraised.trans hraises)]
    have hcomes : x.comesToSave ending log = false := by
      rw [RouteWorld.comesToSave, hcount, hraises]
      rfl
    have hfails : x.comesToError ending log = false := by
      rw [RouteWorld.comesToError, hcount, hraises]
      rfl
    refine ⟨_, .aborted hcomes hfails, ?_⟩
    rw [hrun, ← hsession]
    generalize hs : Route.run x before (Route.begin x) = r at hrecorded hraised hjoin ⊢
    obtain ⟨s, raised⟩ := r
    obtain rfl : raised = true := hraised.trans hraises
    exact internalError_session hjoin hrecorded
  | false =>
    have hflag : (Route.run x before (Route.begin x)).2 = false := hraised.trans hraises
    have hjoined := (hstep hflag).joined
    obtain ⟨sent, hsent⟩ := run_control hcontrol (Route.run x before (Route.begin x)).1
    obtain ⟨metering, hmetering, hdone⟩ := onDone_session (x := x)
      (s := { (Route.run x before (Route.begin x)).1 with sent }) hjoined hrecorded d
    -- it comes to `done`, with what the tools have left in the session
    have hrun : sessionAfter x (Route.run x log (Route.begin x))
        = sessionAfter x (Route.onDone x { (Route.run x before (Route.begin x)).1 with sent }
            (toDict (.done d))) := by
      rw [hlog, Route.run_append, if_neg (by rw [hflag]; simp), Route.run_append, hsent,
        if_neg (by simp), Route.run, Route.act, onEvent_done]
      split
      next s' heq => rw [heq]
      next s' heq => rw [heq]; rfl
    have hcomes : x.comesToSave ending log = true := by
      rw [RouteWorld.comesToSave, hcount, hraises, hresponse]
      rfl
    refine ⟨_, .done _ metering hcomes hresponse (husage ▸ hmetering), ?_⟩
    rw [hrun, hdone, ← hsession]

/-- How the route closes a turn, and on what session. -/
theorem eventGenerator_closes (c : Config) (r : Request) (w : World) (x : RouteWorld)
    (hruns : RunsTools c (generateStream c r w).2.log) :
    ∃ closing, Closes x (generateStream c r w).1 (generateStream c r w).2.log closing ∧
      (eventGenerator x (generateStream c r w).1 (generateStream c r w).2.log).session
        = closing.apply ((TxSession.add {} .user).finishAll
            (x.ends (executionsOf (generateStream c r w).2.log).length)) := by
  have hends := generateStream_ends c r w
  generalize (generateStream c r w).1 = ending at hends ⊢
  generalize (generateStream c r w).2.log = log at hends hruns ⊢
  cases hends with
  | answered before d log_eq progress stored usage =>
    exact closes_done x [] log_eq progress (fun e he => absurd he (by simp)) rfl usage
  | asked before run e d log_eq progress texts executed control stored usage =>
    refine closes_done x [e] log_eq progress ?_ (by rw [texts]; rfl) usage
    intro e' he'
    rw [List.mem_singleton.mp he']
    exact typed_control (hruns run executed) control
  | failed before message log_eq progress =>
    obtain ⟨hsession, hraised, hrecorded, text, hjoin⟩ := run_begin x progress
    have hcount : executionsOf log = executionsOf before := by
      rw [log_eq, executionsOf_append]
      exact List.append_nil _
    have hevents : (eventGenerator x .failed log).session
        = sessionAfter x (if (Route.run x before (Route.begin x)).2
            then Route.run x before (Route.begin x)
            else ((Route.run x before (Route.begin x)).1.send
              (toDict (.error message))).persistAbort x.noted x.noteRollbackRaises) := by
      rw [eventGenerator_of_run (by simp), log_eq, Route.run_append, run_error]
    have hfails : x.comesToError .failed log = !(Route.run x before (Route.begin x)).2 := by
      rw [RouteWorld.comesToError, hcount, hraised]
      exact Bool.and_true _
    rw [hevents, hcount, ← hsession]
    generalize hs : Route.run x before (Route.begin x) = r at hrecorded hfails hjoin ⊢
    obtain ⟨s, raised⟩ := r
    cases raised with
    | true =>
      -- the exception of a tool came first
      exact ⟨_, .aborted (Bool.and_false _) hfails, internalError_session hjoin hrecorded⟩
    | false =>
      exact ⟨_, .failed (Bool.and_false _) hfails, error_session (s := s.send _) hjoin hrecorded⟩
  | raised progress =>
    obtain ⟨hsession, hraised, hrecorded, text, hjoin⟩ := run_begin x progress
    refine ⟨_, .aborted (Bool.and_false _) (Bool.and_false _), ?_⟩
    rw [← hsession]
    unfold eventGenerator
    generalize hs : Route.run x log (Route.begin x) = r at hrecorded hraised hjoin ⊢
    obtain ⟨s, raised⟩ := r
    cases raised with
    | true => exact internalError_session hjoin hrecorded
    | false => exact internalError_session hjoin hrecorded

/-! ## The turns the route serves -/

/-- A turn of the route: from its own look at the cache, as a comparison, or by
`generate_stream`. -/
inductive Served
  | cached (entry : Cache.Cached)
  | compared (label : Text → Text) (models : List Compared) (queue : List (Nat × QueueItem))
  | streamed (r : Request) (w : World)

def Served.route (c : Config) (x : RouteWorld) : Served → Route
  | .cached entry => cachedGenerator x entry
  | .compared label models queue => compareGenerator x (compareStreams label models queue)
  | .streamed r w => eventGenerator x (generateStream c r w).1 (generateStream c r w).2.log

/-- The results of the turn's tools are those of the registry. -/
def Served.RunsTools (c : Config) : Served → Prop
  | .streamed r w => Stream.RunsTools c (generateStream c r w).2.log
  | _ => True

theorem compareGenerator_session (x : RouteWorld) (events : List CompareEvent) :
    (compareGenerator x events).session = {} := by
  have hsend : ∀ s : Route, (events.foldl (Route.onCompare x) s).session = s.session := by
    induction events with
    | nil => exact fun s => rfl
    | cons event events ih =>
      intro s
      rw [List.foldl_cons, ih]
      cases event with
      | compareStart models => rfl
      | token content model => rfl
      | done => rfl
  exact hsend _

theorem cachedGenerator_session (x : RouteWorld) (entry : Cache.Cached) :
    (cachedGenerator x entry).session
      = if x.saved then ⟨[.user, .assistant none], []⟩ else ⟨[], []⟩ := by
  unfold cachedGenerator
  dsimp only
  split
  next =>
    split
    next => rfl
    next => rfl
  next => rfl

end Eidetic.Chat
