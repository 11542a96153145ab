import Eidetic.Stream.Step

/-!
# How a turn ends

What the events of a turn show and report at its end: after events that only
report progress, a turn that answers sends `done` when the tokens it has not
taken back are the response; one that asks sends a control event and `done`
when it has taken all of them back; one that fails sends `error`. The usage
that `done` carries is that of the last call of a model.

Two things are followed along a turn. The tokens that are held, those sent and
not taken back, are the text that the loops have in their locals (`Going`), and
the usage to be reported is that of the last call, if it had one (`Reporting`).
`Course` puts them together at each point, and `Course.step` is the step lemma.
What the route stores and what the reader shows are computed from the events, so
for the modules of the chat a turn is one of the cases of `Ends`.
-/

namespace Eidetic.Stream

open Eidetic.Py Eidetic.Context Eidetic.Tools

abbrev Usage := List (Text × Json)

/-- Events that neither end a turn nor ask the user. -/
def StreamEvent.isProgress : StreamEvent → Bool
  | .status .. => true
  | .token _ => true
  | .preambleDiscard => true
  | .toolCall .. => true
  | .toolResult .. => true
  | _ => false

@[elab_as_elim]
theorem StreamEvent.progress_cases {motive : (e : StreamEvent) → e.isProgress = true → Prop}
    (status : ∀ stage detail level ms, motive (.status stage detail level ms) rfl)
    (token : ∀ t, motive (.token t) rfl) (preambleDiscard : motive .preambleDiscard rfl)
    (toolCall : ∀ name args, motive (.toolCall name args) rfl)
    (toolResult : ∀ name content, motive (.toolResult name content) rfl) (e : StreamEvent)
    (he : e.isProgress = true) : motive e he := by
  cases e with
  | status stage detail level ms => exact status stage detail level ms
  | token t => exact token t
  | preambleDiscard => exact preambleDiscard
  | toolCall name args => exact toolCall name args
  | toolResult name content => exact toolResult name content
  | askUser question => exact absurd he (by simp [StreamEvent.isProgress])
  | confirmWriteMemory fact => exact absurd he (by simp [StreamEvent.isProgress])
  | confirmCalendarWrite payload => exact absurd he (by simp [StreamEvent.isProgress])
  | done d => exact absurd he (by simp [StreamEvent.isProgress])
  | error message => exact absurd he (by simp [StreamEvent.isProgress])

/-- The tokens that are not taken back. -/
def hold (texts : List Text) : StreamEvent → List Text
  | .token t => texts ++ [t]
  | .preambleDiscard => []
  | _ => texts

def held (events : List StreamEvent) : List Text := events.foldl hold []

/-- What each call of a model has reported last. -/
def report (usages : List Usage) : Action → List Usage
  | .call .. => usages ++ [[]]
  | .usage items => usages.dropLast ++ [items]
  | _ => usages

def reports (log : List Action) : List Usage := log.foldl report []

/-- The ends of a turn. -/
inductive Ends (c : Config) : Ending → List Action → Prop
  | answered {log : List Action} (before : List Action) (d : DoneEvent)
      (log_eq : log = before ++ [.emit (.done d)])
      (progress : ∀ e ∈ eventsOf before, e.isProgress = true)
      (stored : ∀ text model, .cache text model ∈ log → text = (held (eventsOf before)).flatten)
      (usage : d.usage = (reports log).getLastD []) :
      Ends c (.answered (held (eventsOf before)).flatten d.model) log
  | asked {log : List Action} (before : List Action) (x : Execution) (e : StreamEvent)
      (d : DoneEvent) (log_eq : log = before ++ [.emit e, .emit (.done d)])
      (progress : ∀ e ∈ eventsOf before, e.isProgress = true)
      (texts : held (eventsOf before) = []) (executed : x ∈ executionsOf log)
      (control : controlOf c.numerals x.result = .event e)
      (stored : ∀ text model, .cache text model ∉ log)
      (usage : d.usage = (reports log).getLastD []) :
      Ends c .asked log
  | failed {log : List Action} (before : List Action) (message : Text)
      (log_eq : log = before ++ [.emit (.error message)])
      (progress : ∀ e ∈ eventsOf before, e.isProgress = true) :
      Ends c .failed log
  | raised {log : List Action} (progress : ∀ e ∈ eventsOf log, e.isProgress = true) :
      Ends c .raised log

/-! ## A turn under way -/

theorem held_append (xs ys : List StreamEvent) : held (xs ++ ys) = ys.foldl hold (held xs) :=
  List.foldl_append

theorem reports_append (xs ys : List Action) : reports (xs ++ ys) = ys.foldl report (reports xs) :=
  List.foldl_append

def Action.isCache : Action → Bool
  | .cache .. => true
  | _ => false

/-- So far there is only progress, these tokens are held, and nothing is stored. -/
structure Going (log : List Action) (texts : List Text) : Prop where
  progress : ∀ e ∈ eventsOf log, e.isProgress = true
  texts : held (eventsOf log) = texts
  stored : ∀ a ∈ log, a.isCache = false

/-- The last call has reported this usage. -/
def Reporting (log : List Action) (usage : Usage) : Prop :=
  ∃ earlier, reports log = earlier ++ [usage]

/-- What holds at a moment of a turn. -/
def Course (c : Config) (m : Moment) : Prop :=
  match m.point with
  | .between => Going m.turn.log []
  | .round _ => Going m.turn.log []
  | .reading _ r => Going m.turn.log r.accumulated ∧ Reporting m.turn.log r.usage ∧
      (r.started = false → r.accumulated = [])
  | .calling _ usage _ => Going m.turn.log [] ∧ Reporting m.turn.log usage
  | .ended e => Ends c e m.turn.log

/-- Progress that neither shows nor takes back a token. -/
def Action.isBeside : Action → Bool
  | .emit e => e.isProgress && match e with
    | .token _ => false
    | .preambleDiscard => false
    | _ => true
  | .call .. => false
  | .usage _ => false
  | .cache .. => false
  | _ => true

theorem eventsOf_emit (e : StreamEvent) : eventsOf [.emit e] = [e] := rfl

theorem Going.append {log : List Action} {texts : List Text} (h : Going log texts)
    (more : List Action) (hmore : ∀ e ∈ eventsOf more, e.isProgress = true)
    (hstored : ∀ a ∈ more, a.isCache = false) :
    Going (log ++ more) ((eventsOf more).foldl hold texts) := by
  rw [← h.texts]
  refine ⟨fun e he => ?_, ?_, fun a ha => ?_⟩
  · rw [eventsOf_append] at he
    exact (List.mem_append.mp he).elim (h.progress e) (hmore e)
  · rw [eventsOf_append, held_append]
  · exact (List.mem_append.mp ha).elim (h.stored a) (hstored a)

theorem beside_hold {more : List Action} (h : more.all Action.isBeside = true)
    (texts : List Text) :
    (∀ e ∈ eventsOf more, e.isProgress = true) ∧ (eventsOf more).foldl hold texts = texts := by
  induction more generalizing texts with
  | nil => exact ⟨fun e he => absurd he (by simp [eventsOf]), rfl⟩
  | cons a more ih =>
    rw [List.all_cons, Bool.and_eq_true] at h
    obtain ⟨hprogress, htexts⟩ := ih h.2 texts
    have hsplit : eventsOf (a :: more) = eventsOf [a] ++ eventsOf more :=
      eventsOf_append [a] more
    rw [hsplit, List.foldl_append]
    cases a with
    | emit e =>
      have he : e.isProgress = true := (Bool.and_eq_true_iff.mp h.1).1
      -- what is beside the tokens neither adds to what is held nor takes it back
      have hhold : hold texts e = texts := by
        cases e with
        | token t => exact absurd h.1 (by simp [Action.isBeside])
        | preambleDiscard => exact absurd h.1 (by simp [Action.isBeside])
        | _ => rfl
      refine ⟨fun e' he' => ?_, ?_⟩
      · rcases List.mem_append.mp he' with he' | he'
        · rw [List.mem_singleton.mp he']
          exact he
        · exact hprogress e' he'
      · rw [eventsOf_emit, List.foldl_cons, List.foldl_nil, hhold]
        exact htexts
    | _ => exact ⟨hprogress, htexts⟩

theorem Going.beside {log log' more : List Action} {texts : List Text} (h : Going log texts)
    (heq : log' = log ++ more) (hmore : more.all Action.isBeside = true) : Going log' texts := by
  obtain ⟨hprogress, htexts⟩ := beside_hold hmore texts
  have hstored : ∀ a ∈ more, a.isCache = false := by
    intro a ha
    have hbeside := List.all_eq_true.mp hmore a ha
    cases a with
    | cache text model => exact absurd hbeside (by simp [Action.isBeside])
    | _ => rfl
  rw [heq]
  exact htexts ▸ h.append more hprogress hstored

theorem beside_report {more : List Action} (h : more.all Action.isBeside = true)
    (usages : List Usage) : more.foldl report usages = usages := by
  induction more with
  | nil => rfl
  | cons a more ih =>
    rw [List.all_cons, Bool.and_eq_true] at h
    rw [List.foldl_cons]
    cases a with
    | call model messages tools => exact absurd h.1 (by simp [Action.isBeside])
    | usage items => exact absurd h.1 (by simp [Action.isBeside])
    | _ => exact ih h.2

theorem Reporting.beside {log log' more : List Action} {usage : Usage} (h : Reporting log usage)
    (heq : log' = log ++ more) (hmore : more.all Action.isBeside = true) : Reporting log' usage := by
  unfold Reporting
  rw [heq, reports_append, beside_report hmore]
  exact h

theorem Reporting.emit {log : List Action} {usage : Usage} (h : Reporting log usage)
    (e : StreamEvent) : Reporting (log ++ [.emit e]) usage := by
  unfold Reporting
  rw [reports_append]
  exact h

theorem Reporting.last {log : List Action} {usage : Usage} (h : Reporting log usage) :
    (reports log).getLastD [] = usage := by
  obtain ⟨earlier, heq⟩ := h
  rw [heq, List.getLastD_concat]

/-! ## The ends -/

theorem executionsOf_runTool (c : Config) (s : Turn) (name : Text) (args : List (Text × Json))
    (result : ToolResult) :
    executionsOf (Stream.runTool c s name args result).log
      = executionsOf s.log ++ [⟨name, args, result.text⟩] := by
  rw [runTool_log, executionsOf_append]
  rfl

variable {c : Config} {log log' : List Action}

theorem Going.fail {texts : List Text} (h : Going log texts) {message : Text}
    (heq : log' = log ++ [.emit (.error message)]) : Ends c .failed log' :=
  .failed log message heq h.progress

theorem Going.stopFor {texts : List Text} (h : Going log texts) {reason : Text}
    (heq : log' = log ++ [.emit (.alert "budget" reason), .emit (.error reason)]) :
    Ends c .failed log' := by
  have halert : Going (log ++ [.emit (.alert "budget" reason)]) texts := h.beside rfl rfl
  have hsplit : log' = log ++ [.emit (.alert "budget" reason)] ++ [.emit (.error reason)] := by
    rw [heq, List.append_assoc]
    rfl
  exact halert.fail hsplit

theorem cacheActions_eventsOf (p : Plan) (a : Attempt) (r : Reading) :
    eventsOf (cacheActions p a r) = [] := by
  unfold cacheActions
  split
  next => rfl
  next => rfl

/-- The response is that of the tokens, also where it is stored. -/
theorem Going.answer {r : Reading} {d : DoneEvent} {p : Plan} {a : Attempt}
    (h : Going log r.accumulated) (hreporting : Reporting log r.usage) (hd : d.usage = r.usage)
    (heq : log' = log ++ cacheActions p a r ++ [.emit (.done d)]) :
    Ends c (.answered r.accumulated.flatten d.model) log' := by
  have hevents : eventsOf (log ++ cacheActions p a r) = eventsOf log := by
    rw [eventsOf_append, cacheActions_eventsOf, List.append_nil]
  have htexts : held (eventsOf (log ++ cacheActions p a r)) = r.accumulated := by
    rw [hevents, h.texts]
  have hreports : reports (log ++ cacheActions p a r) = reports log := by
    rw [reports_append]
    unfold cacheActions
    split
    next => rfl
    next => rfl
  -- storing the response reports no usage, so the last one is the same
  have hlast : Reporting (log ++ cacheActions p a r) r.usage := by
    unfold Reporting
    rw [hreports]
    exact hreporting
  rw [← htexts]
  refine .answered (log ++ cacheActions p a r) d heq (hevents ▸ h.progress) ?_ ?_
  · intro text model hmem
    rw [htexts]
    rw [heq] at hmem
    rcases List.mem_append.mp hmem with hmem | hmem
    · rcases List.mem_append.mp hmem with hmem | hmem
      · exact absurd (h.stored _ hmem) (by simp [Action.isCache])
      · exact (Action.cache.inj (mem_cacheActions hmem)).1
    · exact absurd hmem (by simp)
  · rw [heq, (hlast.emit (.done d)).last, hd]

theorem Going.ask {usage : Usage} {x : Execution} {e : StreamEvent} {d : DoneEvent}
    (h : Going log []) (hreporting : Reporting log usage) (hx : x ∈ executionsOf log)
    (hcontrol : controlOf c.numerals x.result = .event e) (hd : d.usage = usage)
    (heq : log' = log ++ [.emit e, .emit (.done d)]) : Ends c .asked log' := by
  refine .asked log x e d heq h.progress h.texts ?_ hcontrol ?_ ?_
  · rw [heq, executionsOf_append]
    exact List.mem_append_left _ hx
  · intro text model hmem
    rw [heq] at hmem
    rcases List.mem_append.mp hmem with hmem | hmem
    · exact absurd (h.stored _ hmem) (by simp [Action.isCache])
    · exact absurd hmem (by simp)
  · have hlast := ((hreporting.emit e).emit (.done d)).last
    rw [List.append_assoc] at hlast
    rw [heq, hd]
    exact hlast.symm

theorem startStatus_beside (c : Config) (p : Plan) (idx : Nat) (model : Text) :
    Action.isBeside (.emit (startStatus c p idx model)) = true :=
  startStatus_of (fun e => Action.isBeside (.emit e) = true) (fun _ => rfl) (fun _ => rfl) c p idx
    model

/-- The text before a tool call is taken back. -/
theorem Going.discard {r : Reading} (h : Going log r.accumulated) :
    Going (log ++ discardActions r) [] := by
  unfold discardActions
  split
  next hempty =>
    rw [List.isEmpty_iff.mp hempty] at h
    rw [List.append_nil]
    exact h
  next =>
    exact h.append [_] (by simp [eventsOf_emit, StreamEvent.isProgress]) (by simp [Action.isCache])

theorem Reporting.discard {r : Reading} {usage : Usage} (h : Reporting log usage) :
    Reporting (log ++ discardActions r) usage := by
  unfold discardActions
  split
  next => rw [List.append_nil]; exact h
  next => exact h.emit .preambleDiscard

theorem Going.runTool {s : Turn} {texts : List Text} (h : Going s.log texts) (tc : ToolCall)
    (args : List (Text × Json)) (result : ToolResult) :
    Going (Stream.runTool c (s.act (.request tc)) tc.name args result).log texts :=
  (h.beside (Turn.act_log s (.request tc)) rfl).beside (runTool_log _ c tc.name args result) rfl

theorem Reporting.runTool {s : Turn} {usage : Usage} (h : Reporting s.log usage) (tc : ToolCall)
    (args : List (Text × Json)) (result : ToolResult) :
    Reporting (Stream.runTool c (s.act (.request tc)) tc.name args result).log usage :=
  (h.beside (Turn.act_log s (.request tc)) rfl).beside (runTool_log _ c tc.name args result) rfl

theorem Course.step {p : Plan} (m m' : Moment) (hstep : Step c p m m') (h : Course c m) :
    Course c m' := by
  cases hstep with
  | start idx model s =>
    refine h.beside (startModel_log s c p idx model) ?_
    rw [List.all_cons, List.all_cons, startStatus_beside]
    rfl
  | exhausted s => exact h.fail (Turn.emit_log s _)
  | limit a s => exact h.fail (Turn.emit_log s _)
  | overBudget a s hcheck => exact h.stopFor (Turn.stopFor_log s _)
  | call a s hcheck =>
    refine ⟨?_, ⟨reports s.log, ?_⟩, fun _ => rfl⟩
    · exact h.append [_] (by simp [eventsOf]) (by simp [Action.isCache])
    · exact reports_append s.log [_]
  | text a r s t hcheck =>
    obtain ⟨hgoing, hreporting, -⟩ := h
    refine ⟨?_, ?_, fun hstarted => absurd hstarted (by simp)⟩
    · exact hgoing.append [.emit (.token t)] (by simp [eventsOf_emit, StreamEvent.isProgress])
        (by simp [Action.isCache])
    · exact hreporting.emit (.token t)
  | textOver a r s t hcheck =>
    have htoken : Going (s.sendToken t).log (r.accumulated ++ [t]) :=
      h.1.append [.emit (.token t)] (by simp [eventsOf_emit, StreamEvent.isProgress])
        (by simp [Action.isCache])
    exact htoken.stopFor (Turn.stopFor_log _ _)
  -- a budget ends the turn with what was sent still shown, and an error after it
  | late a r s => exact h.1.stopFor (Turn.stopFor_log s _)
  | toolCalls a r s calls => exact h
  | usage a r s items =>
    obtain ⟨hgoing, ⟨earlier, hearlier⟩, hstarted⟩ := h
    refine ⟨hgoing.append [.usage items] (by simp [eventsOf]) (by simp [Action.isCache]),
      ⟨earlier, ?_⟩, hstarted⟩
    change reports (s.log ++ [.usage items]) = _
    rw [reports_append, hearlier]
    simp [report]
  | interrupted a r s hstarted => exact h.1.fail (Turn.emit_log s _)
  | broken a r s hstarted =>
    -- the next model begins with nothing held, since this one has sent nothing
    obtain ⟨hgoing, -, hempty⟩ := h
    rw [hempty hstarted] at hgoing
    exact hgoing
  | requested a r s ms hcalls =>
    have hstatus : [Action.emit (modelCallStatus a.model r.toolCalls ms)].all Action.isBeside
        = true := rfl
    change Going (discardPreamble r _).log [] ∧ Reporting (discardPreamble r _).log r.usage
    rw [discardPreamble_log]
    -- the text before a tool call is taken back, so nothing is held when the tool runs
    exact ⟨(h.1.beside (Turn.emit_log s _) hstatus).discard,
      (h.2.1.beside (Turn.emit_log s _) hstatus).discard⟩
  | empty a r s ms hcalls hempty =>
    have hgoing := h.1
    rw [hempty] at hgoing
    exact hgoing.beside (Turn.emit_log s _) rfl
  | answered a r s ms hcalls hne =>
    have hstatus : [Action.emit (modelCallStatus a.model r.toolCalls ms)].all Action.isBeside
        = true := rfl
    exact (h.1.beside (Turn.emit_log s _) hstatus).answer (h.2.1.beside (Turn.emit_log s _) hstatus)
      rfl (finish_log _ p a r)
  | badArguments a usage tc rest s hargs =>
    exact .raised (h.1.beside (Turn.act_log s (.request tc)) rfl).progress
  | guarded a usage tc rest s hargs hlimit =>
    exact ⟨(h.1.beside (Turn.act_log s (.request tc)) rfl).beside (Turn.emit_log _ _) rfl,
      (h.2.beside (Turn.act_log s (.request tc)) rfl).beside (Turn.emit_log _ _) rfl⟩
  | badControl a usage tc rest s result hargs hlimit hcontrol =>
    exact .raised (h.1.runTool tc _ result).progress
  | @controlled a usage tc rest s args result e hargs hlimit hcontrol =>
    have hx : ⟨tc.name, args, result.text⟩
        ∈ executionsOf (Stream.runTool c (s.act (.request tc)) tc.name args result).log := by
      rw [executionsOf_runTool]
      simp
    exact (h.1.runTool tc args result).ask (h.2.runTool tc args result) hx hcontrol rfl
      (List.append_assoc ..)
  | @executed a usage tc rest s args result hargs hlimit hcontrol =>
    exact ⟨(h.1.runTool tc args result).beside (Turn.emit_log _ _) rfl,
      (h.2.runTool tc args result).beside (Turn.emit_log _ _) rfl⟩
  | callsDone a usage s => exact h.1

/-- Every turn comes to one of the ends. -/
theorem generateStream_ends (c : Config) (r : Request) (w : World) :
    Ends c (generateStream c r w).1 (generateStream c r w).2.log := by
  have hstart : ∀ events : List StreamEvent,
      (∀ e ∈ events, ∃ stage detail, e = .info stage detail) →
      Going (events.map .emit) [] := by
    intro events hevents
    have hempty : Going [] [] :=
      ⟨fun e he => absurd he (by simp [eventsOf]), rfl, fun a ha => absurd ha (by simp)⟩
    refine hempty.beside (List.nil_append _).symm (List.all_eq_true.mpr fun a ha => ?_)
    obtain ⟨e, he, rfl⟩ := List.mem_map.mp ha
    obtain ⟨stage, detail, rfl⟩ := hevents e he
    rfl
  cases generateStream_begins c r w with
  | cached cached huse hcached h =>
    rw [h]
    -- a stored response is sent as one token
    have hanswer : Ends c (.answered [cached.response].flatten cached.model)
        (serveCached cached {}).log :=
      .answered [.emit (.info "cache" "Cache hit — returning stored answer".toList),
        .emit (.token cached.response)] ⟨cached.model, true, false, false, false, none, []⟩ rfl
        (by simp [eventsOf, StreamEvent.info, StreamEvent.isProgress])
        (fun text model hmem => absurd hmem (by simp [serveCached, Turn.emit, Turn.act])) rfl
    rw [List.flatten_singleton] at hanswer
    exact hanswer
  | undecodable huser h =>
    rw [h]
    refine .raised (hstart [routeStatus c r w] ?_).progress
    intro e he
    rw [List.mem_singleton.mp he]
    exact ⟨_, _, rfl⟩
  | runs user status huser hplan h =>
    exact Steps.invariant Course.step h (hstart _ hplan)

end Eidetic.Stream
