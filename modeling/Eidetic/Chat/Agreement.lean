import Eidetic.Chat.Frames
import Eidetic.Stream.Outcome
import Eidetic.Stream.Forgery

/-!
# The text of a reply, on both sides

The generator keeps the tokens of a round, the route those it has forwarded, and
the frontend builds a text from frames that arrive in chunks of any size. At the
`done` event the three agree (`agreement`).

The invariant is `InStep`: while the events of a turn go by, the texts that the
route has collected are those of the turn's tokens since the last discard, and
folding the frames it has sent over the frontend's message gives the same text,
with nothing shown at a `done` event yet. Progress events keep it
(`InStep.onEvent`), the executions of tools do not touch it
(`InStep.onExecute`), so the actions of a turn under way do (`InStep.run`).

The ends of a turn are taken from there one by one. A `done` event makes the
text of the route from what it has collected, whatever the saving of the message
does (`Route.save_keeps`), and what is sent afterwards shows nothing of its own
(`Route.suggest_shown`); a control event, an error event and an exception send
no `done` at all (`unfinished`). What the generator keeps of the tokens is the
invariant of `Stream.Outcome`. That the frontend reads the frames as they were
sent, however the body is cut, is `readAll_body`; so the three sides meet in
`agreement`.
-/

namespace Eidetic.Chat

open Eidetic.Lib Eidetic.Py Eidetic.Stream Eidetic.Tools

/-! ## The route keeps step -/

/-- The route has collected these texts, and the frontend shows them. -/
structure InStep (n : Numerals) (texts : List Text) (s : Route) : Prop where
  accumulated : s.accumulated = texts.map .str
  shown : s.sent.foldl (Shown.onDict n) {} = { text := texts.flatten, atDone := none }
  finished : s.finished = false

variable {n : Numerals} {texts : List Text} {s : Route} {x : RouteWorld}

theorem InStep.send {type : String} {d : Dict} (h : InStep n texts s) (hd : Typed type d)
    (hother : changesText type = false) : InStep n texts (s.send d) := by
  refine ⟨h.accumulated, ?_, h.finished⟩
  rw [Route.send, List.foldl_append, h.shown]
  exact onDict_other hd hother _

theorem joinTexts_map (texts : List Text) : joinTexts (texts.map .str) = some texts.flatten := by
  induction texts with
  | nil => rfl
  | cons t texts ih =>
    rw [List.map_cons, joinTexts, ih]
    rfl

theorem onEvent_token (s : Route) (t : Text) :
    s.onEvent x (toDict (.token t))
      = ({ s with accumulated := s.accumulated ++ [Json.str t] }.send (toDict (.token t)),
        false) := by
  have htype : getItem (toDict (.token t)) "type" = some (.str "token".toList) := rfl
  have hcontent : getItem (toDict (.token t)) "content" = some (.str t) := by
    simp [toDict, dict, getItem, List.lookup_cons]
  have htoken : isText (some (.str "token".toList)) "token" = true := rfl
  unfold Route.onEvent
  rw [htype]
  dsimp only
  rw [if_pos htoken, hcontent]

/-- Progress is forwarded, and the texts are collected as the generator does. -/
theorem InStep.onEvent (h : InStep n texts s) {e : StreamEvent} (he : e.isProgress = true) :
    ∃ s', s.onEvent x (toDict e) = (s', false) ∧ InStep n (hold texts e) s' := by
  induction e, he using StreamEvent.progress_cases with
  | status stage detail level ms =>
    refine ⟨_, rfl, ?_⟩
    have hactivity : InStep n texts { s with activity := s.activity
        ++ [(toDict (.status stage detail level ms)).filter fun item => item.1 != "type".toList] } :=
      ⟨h.accumulated, h.shown, h.finished⟩
    exact hactivity.send (typed_status stage detail level ms) rfl
  | token t =>
    refine ⟨_, onEvent_token s t, ?_, ?_, h.finished⟩
    · change s.accumulated ++ [.str t] = _
      rw [h.accumulated, hold, List.map_append]
      rfl
    · change (s.sent ++ [toDict (.token t)]).foldl (Shown.onDict n) {} = _
      rw [List.foldl_append, h.shown, hold, List.flatten_append, List.flatten_singleton]
      exact onDict_token n t _
  | preambleDiscard =>
    refine ⟨{ s with accumulated := [] }.send (toDict .preambleDiscard), rfl, rfl, ?_, h.finished⟩
    change (s.sent ++ [toDict .preambleDiscard]).foldl (Shown.onDict n) {} = _
    rw [List.foldl_append, h.shown]
    exact onDict_preambleDiscard n _
  | toolCall name args => exact ⟨_, rfl, h.send (typed_toolCall name args) rfl⟩
  | toolResult name content => exact ⟨_, rfl, h.send (typed_toolResult name content) rfl⟩

theorem InStep.onExecute (h : InStep n texts s) : InStep n texts (s.onExecute x).1 := by
  unfold Route.onExecute
  dsimp only
  split
  next => exact ⟨h.accumulated, h.shown, h.finished⟩
  next => exact ⟨h.accumulated, h.shown, h.finished⟩

/-- The actions of a turn under way; an exception of a tool's rollback stops them. -/
theorem InStep.run (h : InStep n texts s) {log : List Action}
    (hlog : ∀ e ∈ eventsOf log, e.isProgress = true) :
    (∃ kept, InStep n kept (Route.run x log s).1) ∧
      ((Route.run x log s).2 = false →
        InStep n ((eventsOf log).foldl hold texts) (Route.run x log s).1) := by
  induction log generalizing s texts with
  | nil => exact ⟨⟨texts, h⟩, fun _ => h⟩
  | cons a log ih =>
    have hrest : ∀ e ∈ eventsOf log, e.isProgress = true :=
      fun e he => hlog e (mem_eventsOf_cons a he)
    -- an action that sends nothing leaves the route where it was
    have hskip : ∀ s', InStep n texts s' → s.act x a = (s', false) → eventsOf [a] = [] →
        (∃ kept, InStep n kept (Route.run x (a :: log) s).1) ∧
          ((Route.run x (a :: log) s).2 = false →
            InStep n ((eventsOf (a :: log)).foldl hold texts) (Route.run x (a :: log) s).1) := by
      intro s' hs' hact hnone
      have hevents : eventsOf (a :: log) = eventsOf log := by
        rw [← List.singleton_append, eventsOf_append, hnone, List.nil_append]
      rw [Route.run, hact, hevents]
      exact ih hs' hrest
    cases a with
    | emit e =>
      have he : e.isProgress = true := hlog e (mem_eventsOf.mpr (List.mem_cons_self ..))
      obtain ⟨s', hs', hstep⟩ := h.onEvent (x := x) he
      have hact : s.act x (.emit e) = (s', false) := hs'
      rw [Route.run, hact]
      exact ih hstep hrest
    | execute name args result =>
      cases hact : s.onExecute x with
      | mk s' raised =>
        have hs' : InStep n texts s' := by
          have hexecute := h.onExecute (x := x)
          rw [hact] at hexecute
          exact hexecute
        -- the rollback after a tool may raise, and then nothing more is read
        cases raised with
        | false => exact hskip s' hs' hact rfl
        | true =>
          have hrun : Route.run x (.execute name args result :: log) s = (s', true) := by
            rw [Route.run, Route.act, hact]
          rw [hrun]
          exact ⟨⟨texts, hs'⟩, fun hraised => absurd hraised (by simp)⟩
    | attempt model => exact hskip s h rfl rfl
    | call model messages tools => exact hskip s h rfl rfl
    | usage items => exact hskip s h rfl rfl
    | request tc => exact hskip s h rfl rfl
    | cache response model => exact hskip s h rfl rfl

/-! ## The end of the turn -/

theorem Route.persistAbort_finished (accepted rollbackRaises : Bool) (s : Route) :
    (s.persistAbort accepted rollbackRaises).1.finished = s.finished := by
  unfold Route.persistAbort
  dsimp only
  split
  next => rfl
  next =>
    split
    next =>
      split
      next => rfl
      next => rfl
    next => rfl

/-- What the saving leaves as it is. -/
theorem Route.save_keeps (x : RouteWorld) (s : Route) (event : Dict) (fullResponse : Text) :
    (s.save x event fullResponse).1.sent = s.sent ∧
      (s.save x event fullResponse).1.fullResponse = s.fullResponse ∧
      (s.save x event fullResponse).1.finished = s.finished ∧
      (Typed "done" event → Typed "done" (s.save x event fullResponse).2.1) := by
  unfold Route.save
  dsimp only
  split
  next => exact ⟨rfl, rfl, rfl, id⟩
  next metering =>
    split
    next =>
      split
      next => exact ⟨rfl, rfl, rfl, fun h => h.update (by simp [dict])⟩
      next => exact ⟨rfl, rfl, rfl, id⟩
    next => exact ⟨rfl, rfl, rfl, id⟩

theorem typed_proactive (text : Text) :
    Typed "proactive" (dict [("type", .str "proactive".toList), ("content", .str text)]) :=
  typed_dict "proactive" [("content", .str text)] (by simp)

theorem Route.suggest_shown {m : Shown} (h : s.sent.foldl (Shown.onDict n) {} = m) :
    (s.suggest x).sent.foldl (Shown.onDict n) {} = m := by
  unfold Route.suggest
  split
  next text hsuggestion =>
    rw [Route.send, List.foldl_append, h]
    exact onDict_other (typed_proactive text) rfl m
  next => exact h

theorem Route.suggest_fullResponse (x : RouteWorld) (s : Route) :
    (s.suggest x).fullResponse = s.fullResponse := by
  unfold Route.suggest
  split
  next => rfl
  next => rfl

/-- At the `done` event the texts agree. -/
structure Agrees (n : Numerals) (response : Text) (s : Route) : Prop where
  route : s.fullResponse = some response
  shown : (s.sent.foldl (Shown.onDict n) {}).atDone = some response

theorem InStep.onDone (h : InStep n texts s) {event : Dict} (hevent : Typed "done" event) :
    ((s.onDone x event).2 = true → (s.onDone x event).1.finished = false) ∧
      ((s.onDone x event).2 = false → Agrees n texts.flatten (s.onDone x event).1) := by
  have hjoin : joinTexts s.accumulated = some texts.flatten := by
    rw [h.accumulated, joinTexts_map]
  unfold Route.onDone
  dsimp only
  rw [hjoin]
  dsimp only
  obtain ⟨hsent, hresponse, hfinished, htyped⟩ :=
    Route.save_keeps x { s with modelUsed := modelOf event, fullResponse := some texts.flatten }
      event texts.flatten
  split
  next s' event' heq =>
    rw [heq] at hfinished
    exact ⟨fun _ => hfinished.trans h.finished, fun hraised => absurd hraised (by simp)⟩
  next s' event' heq =>
    rw [heq] at hsent hresponse htyped
    refine ⟨fun hraised => absurd hraised (by simp), fun _ => ⟨?_, ?_⟩⟩
    · exact (Route.suggest_fullResponse x s').trans hresponse
    -- the saving comes before `done` is sent, and sends nothing itself
    · have hshown : s'.sent.foldl (Shown.onDict n) {}
          = { text := texts.flatten, atDone := none } := by
        have hsent' : s'.sent = s.sent := hsent
        rw [hsent']
        exact h.shown
      have hdone : Typed "done" (finishedDict x (s'.suggest x).activity event') :=
        (htyped hevent).update (by simp [dict])
      change (((s'.suggest x).sent ++ [finishedDict x (s'.suggest x).activity event']).foldl
        (Shown.onDict n) {}).atDone = _
      rw [List.foldl_append, Route.suggest_shown hshown, List.foldl_cons, List.foldl_nil,
        onDict_done hdone]

/-! ## Control events -/

theorem onEvent_forwarded {type : String} {d : Dict} (h : Typed type d)
    (htype : type ∈ forwardedTypes) (s : Route) : s.onEvent x d = (s.send d, false) := by
  unfold Route.onEvent
  rw [h.getItem]
  simp only [forwardedTypes, List.mem_cons, List.not_mem_nil, or_false] at htype
  rcases htype with rfl | rfl | rfl | rfl | rfl
  · rfl
  · rfl
  · rfl
  · rfl
  · rfl

theorem forwarded_other {type : String} (h : type ∈ forwardedTypes) : changesText type = false := by
  simp only [forwardedTypes, List.mem_cons, List.not_mem_nil, or_false] at h
  rcases h with rfl | rfl | rfl | rfl | rfl
  · rfl
  · rfl
  · rfl
  · rfl
  · rfl

theorem typed_calendar {payload : Dict} (h : ∀ item ∈ payload, item.1 ≠ "type".toList) :
    Typed "confirm_calendar_write" (toDict (.confirmCalendarWrite payload)) :=
  (typed_dict "confirm_calendar_write" [] (by simp)).update h

/-- The payload of a calendar tool has no type of its own. -/
theorem calendarPayload_keys {n : Numerals} {lower : Text → Text} {run : Execution}
    {payload : Dict} {rest : Text} (hrun : RunTool n lower run.name run.args run.result)
    (hresult : run.result = confirmCalendarPrefix ++ rest)
    (hloads : loads .python n rest = some (.obj payload)) :
    ∀ item ∈ payload, item.1 ≠ "type".toList := by
  obtain ⟨-, op, preview, hrest⟩ := hrun.confirmCalendar hresult hloads
  rw [hrest, loads_dumps, reread, Option.some.injEq, Json.obj.injEq] at hloads
  intro item hitem
  rw [← hloads] at hitem
  obtain ⟨pair, hpair, hkey⟩ := mem_dictOf hitem
  obtain ⟨old, hold, hold'⟩ := mem_rereadMembers hpair
  rw [← hkey, ← hold']
  simp only [List.mem_cons, List.not_mem_nil, or_false] at hold
  rcases hold with rfl | rfl | rfl
  · simp
  · simp
  · simp

/-- A control event that a tool has asked for is forwarded. -/
theorem typed_control {n : Numerals} {lower : Text → Text} {run : Execution} {e : StreamEvent}
    (hrun : RunTool n lower run.name run.args run.result)
    (h : controlOf n run.result = .event e) :
    ∃ type ∈ forwardedTypes, Typed type (toDict e) := by
  unfold controlOf at h
  split at h
  next =>
    rw [← Control.event.inj h]
    exact ⟨"ask_user", by simp [forwardedTypes], typed_dict "ask_user" [("question", _)] (by simp)⟩
  next =>
    split at h
    next =>
      rw [← Control.event.inj h]
      exact ⟨"confirm_write_memory", by simp [forwardedTypes],
        typed_dict "confirm_write_memory" [("fact", _)] (by simp)⟩
    next =>
      split at h
      -- what is spread over the event are the keys that the tool has written
      next hcalendar =>
        split at h
        next payload hloads =>
          rw [startsWith_iff] at hcalendar
          obtain ⟨rest, hrest⟩ := hcalendar
          rw [← hrest, List.drop_left] at hloads
          rw [← Control.event.inj h]
          exact ⟨"confirm_calendar_write", by simp [forwardedTypes],
            typed_calendar (calendarPayload_keys hrun hrest.symm hloads)⟩
        next => exact absurd h (by simp)
      next => exact absurd h (by simp)

/-! ## Agreement -/

theorem Route.run_append (x : RouteWorld) (xs ys : List Action) (s : Route) :
    Route.run x (xs ++ ys) s =
      if (Route.run x xs s).2 then Route.run x xs s else Route.run x ys (Route.run x xs s).1 := by
  induction xs generalizing s with
  | nil => rfl
  | cons a xs ih =>
    rw [List.cons_append, Route.run, Route.run]
    split
    next => rfl
    next s' hact => exact ih s'

theorem onEvent_done (s : Route) (d : DoneEvent) :
    s.onEvent x (toDict (.done d)) = s.onDone x (toDict (.done d)) := by
  have htype : getItem (toDict (.done d)) "type" = some (.str "done".toList) :=
    (typed_doneDict d).getItem
  unfold Route.onEvent
  rw [htype]
  rfl

theorem InStep.control (h : InStep n texts s) {control : List StreamEvent}
    (hcontrol : ∀ e ∈ control, ∃ type ∈ forwardedTypes, Typed type (toDict e)) :
    (Route.run x (control.map .emit) s).2 = false ∧
      InStep n texts (Route.run x (control.map .emit) s).1 := by
  induction control generalizing s with
  | nil => exact ⟨rfl, h⟩
  | cons e control ih =>
    obtain ⟨type, htype, htyped⟩ := hcontrol e (List.mem_cons_self ..)
    have hact : s.act x (.emit e) = (s.send (toDict e), false) := onEvent_forwarded htyped htype s
    rw [List.map_cons, Route.run, hact]
    exact ih (h.send htyped (forwarded_other htype))
      fun e' he' => hcontrol e' (List.mem_cons_of_mem _ he')

/-- A route that comes to the `done` event agrees there. -/
theorem InStep.agrees (h : InStep n texts s) {log : List Action} {d : DoneEvent}
    (hlog : ∀ e ∈ eventsOf log, e.isProgress = true) {control : List StreamEvent}
    (hcontrol : ∀ e ∈ control, ∃ type ∈ forwardedTypes, Typed type (toDict e)) :
    ((Route.run x (log ++ (control.map Action.emit ++ [Action.emit (.done d)])) s).2 = true →
        (Route.run x (log ++ (control.map Action.emit ++ [Action.emit (.done d)])) s).1.finished
          = false) ∧
      ((Route.run x (log ++ (control.map Action.emit ++ [Action.emit (.done d)])) s).2 = false →
        Agrees n ((eventsOf log).foldl hold texts).flatten
          (Route.run x (log ++ (control.map Action.emit ++ [Action.emit (.done d)])) s).1) := by
  obtain ⟨⟨kept, hkept⟩, hstep⟩ := h.run (x := x) hlog
  rw [Route.run_append]
  split
  next hraised =>
    exact ⟨fun _ => hkept.finished, fun hfalse => absurd (hraised.symm.trans hfalse) (by simp)⟩
  next hraised =>
    obtain ⟨hreturns, hcontrolled⟩ := (hstep (by simpa using hraised)).control (x := x) hcontrol
    rw [Route.run_append, if_neg (by rw [hreturns]; simp), Route.run, Route.act, onEvent_done]
    have htyped : Typed "done" (toDict (.done d)) := typed_doneDict d
    have hdone := hcontrolled.onDone (x := x) htyped
    split
    next s' heq =>
      rw [heq] at hdone
      exact ⟨fun _ => hdone.1 rfl, fun hfalse => absurd hfalse (by simp)⟩
    next s' heq =>
      rw [heq] at hdone
      exact ⟨fun htrue => absurd htrue (by simp [Route.run]), fun _ => hdone.2 rfl⟩

/-- The response of a turn that ends with `done`; that of a question is empty. -/
def response : Ending → Option Text
  | .answered text _ => some text
  | .asked => some []
  | .failed => none
  | .raised => none

theorem typed_traced (status : Traced) :
    Typed "status" (update (dict [("type", .str "status".toList)]) status.toDict) := by
  have htype : Typed "status" (dict [("type", .str "status".toList)]) :=
    typed_dict "status" [] (by simp)
  refine htype.update fun item hitem => ?_
  cases status with
  | act stage detail level ms =>
    rcases List.mem_append.mp hitem with hitem | hitem
    · simp only [dict, List.map_cons, List.map_nil, List.mem_cons, List.not_mem_nil, or_false]
        at hitem
      rcases hitem with rfl | rfl | rfl
      · simp
      · simp
      · simp
    · cases ms with
      | none => exact absurd hitem (by simp)
      | some ms => rw [List.mem_singleton.mp hitem]; simp
  | lockUnavailable lockedModel =>
    simp only [Traced.toDict, dict, List.map_cons, List.map_nil, List.mem_cons, List.not_mem_nil,
      or_false] at hitem
    rcases hitem with rfl | rfl | rfl
    · simp
    · simp
    · simp

theorem typed_rotated (ids : Text × Text) : Typed "rotated" (rotatedDict ids) :=
  typed_dict "rotated" [("rotated", _), ("new_conversation_id", _), ("old_conversation_id", _)]
    (by simp)

theorem foldl_onDict_other (n : Numerals) {events : List Dict}
    (h : ∀ d ∈ events, ∃ type, changesText type = false ∧ Typed type d) (m : Shown) :
    events.foldl (Shown.onDict n) m = m := by
  induction events with
  | nil => rfl
  | cons d events ih =>
    obtain ⟨type, hother, htyped⟩ := h d (List.mem_cons_self ..)
    rw [List.foldl_cons, onDict_other htyped hother]
    exact ih fun d' hd' => h d' (List.mem_cons_of_mem _ hd')

/-- The error event is sent, and a note is tried. -/
theorem run_error (x : RouteWorld) (message : Text) (s : Route) :
    Route.run x [.emit (.error message)] s
      = (s.send (toDict (.error message))).persistAbort x.noted x.noteRollbackRaises := by
  have hact : s.act x (.emit (.error message))
      = (s.send (toDict (.error message))).persistAbort x.noted x.noteRollbackRaises := rfl
  rw [Route.run, hact]
  split
  next heq => exact heq.symm
  next heq => exact heq.symm

theorem inStep_begin (n : Numerals) (x : RouteWorld) : InStep n [] (Route.begin x) := by
  refine ⟨rfl, ?_, rfl⟩
  refine foldl_onDict_other n (fun d hd => ?_) {}
  rcases List.mem_append.mp hd with hd | hd
  · obtain ⟨ids, -, rfl⟩ := Option.map_eq_some_iff.mp (Option.mem_toList.mp hd)
    exact ⟨"rotated", rfl, typed_rotated ids⟩
  · obtain ⟨status, -, rfl⟩ := List.mem_map.mp hd
    exact ⟨"status", rfl, typed_traced status⟩

theorem internalError_finished (x : RouteWorld) (s : Route) :
    (s.internalError x).finished = s.finished := Route.persistAbort_finished _ _ _

theorem agrees_of_done {ending : Ending} {before : List Action} {control : List StreamEvent}
    {d : DoneEvent} (n : Numerals) (x : RouteWorld)
    (hprogress : ∀ e ∈ eventsOf before, e.isProgress = true)
    (hcontrol : ∀ e ∈ control, ∃ type ∈ forwardedTypes, Typed type (toDict e))
    (hending : ending ≠ .raised)
    (hdone : (eventGenerator x ending
      (before ++ (control.map Action.emit ++ [Action.emit (.done d)]))).finished = true) :
    Agrees n (held (eventsOf before)).flatten
      (eventGenerator x ending
        (before ++ (control.map Action.emit ++ [Action.emit (.done d)]))) := by
  obtain ⟨hunfinished, hagrees⟩ :=
    (inStep_begin n x).agrees (x := x) (d := d) hprogress hcontrol
  unfold eventGenerator at hdone ⊢
  split at hdone
  next s heq =>
    rw [heq] at hunfinished
    rw [internalError_finished, hunfinished rfl] at hdone
    exact absurd hdone (by simp)
  next s heq =>
    rw [heq] at hagrees
    cases ending with
    | raised => exact absurd rfl hending
    | answered text model => exact hagrees rfl
    | asked => exact hagrees rfl
    | failed => exact hagrees rfl

/-- A turn that fails sends no `done`. -/
theorem unfinished {ending : Ending} {before : List Action} {message : Text} (x : RouteWorld)
    (hprogress : ∀ e ∈ eventsOf before, e.isProgress = true) :
    (eventGenerator x ending (before ++ [.emit (.error message)])).finished = false := by
  obtain ⟨⟨kept, hkept⟩, -⟩ := (inStep_begin digitNumerals x).run (x := x) hprogress
  have hunfinished := hkept.finished
  have hrun : (Route.run x (before ++ [.emit (.error message)]) (Route.begin x)).1.finished
      = false := by
    rw [Route.run_append]
    split
    next => exact hunfinished
    next =>
      -- the note of an error may fail, but it finishes nothing
      have herror : ∀ s : Route,
          (Route.run x [.emit (.error message)] s).1.finished = s.finished := by
        intro s
        have hfinished := Route.persistAbort_finished x.noted x.noteRollbackRaises
          (s.send (toDict (.error message)))
        rw [run_error]
        exact hfinished
      rw [herror]
      exact hunfinished
  unfold eventGenerator
  split
  next s heq =>
    rw [heq] at hrun
    rw [internalError_finished]
    exact hrun
  next s heq =>
    rw [heq] at hrun
    split
    next => rw [internalError_finished]; exact hrun
    next => exact hrun

/-- Nor does one that raises. -/
theorem unfinished_raised {log : List Action} (x : RouteWorld)
    (hprogress : ∀ e ∈ eventsOf log, e.isProgress = true) :
    (eventGenerator x .raised log).finished = false := by
  obtain ⟨⟨kept, hkept⟩, -⟩ := (inStep_begin digitNumerals x).run (x := x) hprogress
  have hunfinished := hkept.finished
  unfold eventGenerator
  split
  next s heq => rw [internalError_finished]; rw [heq] at hunfinished; exact hunfinished
  next s heq => rw [internalError_finished]; rw [heq] at hunfinished; exact hunfinished

/-- What the route has collected at the `done` event, what the frontend shows
then, however the body is cut into chunks, and what the turn stores are the
response of the turn. -/
def AgreesAtDone (n : Numerals) (x : RouteWorld) (ending : Ending) (log : List Action) : Prop :=
  ∃ text, response ending = some text ∧
    (∀ stored model, .cache stored model ∈ log → stored = text) ∧
    (eventGenerator x ending log).fullResponse = some text ∧
    ∀ chunks, chunks.flatten = utf8 ((eventGenerator x ending log).body n) →
      (readAll n chunks).atDone = some text

/-- The three texts of a turn that ends with `done` agree. -/
theorem agreement (c : Config) (r : Request) (w : World) (n : Numerals) (x : RouteWorld)
    (hruns : RunsTools c (generateStream c r w).2.log)
    (hdone : (eventGenerator x (generateStream c r w).1 (generateStream c r w).2.log).finished
      = true) :
    AgreesAtDone n x (generateStream c r w).1 (generateStream c r w).2.log := by
  -- the reader shows what the route has sent, however the body is cut
  have hread : ∀ {text : Text}, Agrees n text
      (eventGenerator x (generateStream c r w).1 (generateStream c r w).2.log) →
      ∀ chunks, chunks.flatten = utf8
        ((eventGenerator x (generateStream c r w).1 (generateStream c r w).2.log).body n) →
      (readAll n chunks).atDone = some text := by
    intro text hagrees chunks hchunks
    rw [readAll_body n _ hchunks]
    exact hagrees.shown
  have hends := generateStream_ends c r w
  generalize (generateStream c r w).1 = ending at hends hdone hread ⊢
  generalize (generateStream c r w).2.log = log at hends hdone hread hruns ⊢
  cases hends with
  | answered before d log_eq progress stored usage =>
    have hlog : log = before ++ (([] : List StreamEvent).map .emit ++ [.emit (.done d)]) := log_eq
    have hagrees : Agrees n (held (eventsOf before)).flatten
        (eventGenerator x (.answered (held (eventsOf before)).flatten d.model) log) := by
      rw [hlog] at hdone ⊢
      exact agrees_of_done n x progress (fun e he => absurd he (by simp)) (by simp) hdone
    exact ⟨_, rfl, stored, hagrees.route, hread hagrees⟩
  -- a turn that asks has taken its text back, so all three are empty
  | asked before run e d log_eq progress texts executed control stored usage =>
    have hcontrol : ∀ e' ∈ [e], ∃ type ∈ forwardedTypes, Typed type (toDict e') := by
      intro e' he'
      rw [List.mem_singleton.mp he']
      exact typed_control (hruns run executed) control
    have hlog : log = before ++ ([e].map .emit ++ [.emit (.done d)]) := log_eq
    have hagrees : Agrees n (held (eventsOf before)).flatten (eventGenerator x .asked log) := by
      rw [hlog] at hdone ⊢
      exact agrees_of_done n x progress hcontrol (by simp) hdone
    rw [texts] at hagrees
    exact ⟨[], rfl, fun text model hmem => absurd hmem (stored text model), hagrees.route,
      hread hagrees⟩
  | failed before message log_eq progress =>
    rw [log_eq, unfinished x progress] at hdone
    exact absurd hdone (by simp)
  | raised progress =>
    rw [unfinished_raised x progress] at hdone
    exact absurd hdone (by simp)

theorem agreement_greeting :
    AgreesAtDone digitNumerals { price := fun _ _ _ => 0 }
      (generateStream smallConfig (question "Hello." []) (meets [answers "Hello you!"] [])).1
      (generateStream smallConfig (question "Hello." [])
        (meets [answers "Hello you!"] [])).2.log := by
  have hexecutions : (executionsOf (generateStream smallConfig (question "Hello." [])
      (meets [answers "Hello you!"] [])).2.log).map (fun x => (x.name, x.result)) = [] := by
    decide
  exact agreement _ _ _ _ _ (runsTools_of hexecutions fun run hrun => absurd hrun (by simp))
    (by decide +kernel)

end Eidetic.Chat
