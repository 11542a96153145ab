import Eidetic.Stream.Step

/-!
# The events of a turn

A turn should end with one `done` or `error` event and let no exception out.
What is read from JSON can prevent that: the arguments of a tool call, of which
`.items()` is asked, and the payload of a calendar confirmation, which is
parsed and spread over the event without a guard; and so can the image of the
request. `wellEnded_iff`: nothing else can.

Along a turn the log is either quiet, with no terminal event, or closed: there
is one, and it is the last. A transition from a quiet log leaves it quiet or
closes it, and a closed one is left by none (`not_closed`). Where that fails,
what is in the log says why: arguments that are no dict, or a result that asks
for a calendar confirmation with a payload that is none or brings a terminal
type of its own. `Orderly` asks that this is not so, and `Kept` is the invariant
in both directions at once: a turn under way is orderly, and one that has ended
is closed exactly when it was.
-/

namespace Eidetic.Stream

open Eidetic.Py Eidetic.Context Eidetic.Tools

/-- `event["type"]`. -/
def StreamEvent.type : StreamEvent → Json
  | .status .. => .str "status".toList
  | .token _ => .str "token".toList
  | .preambleDiscard => .str "preamble_discard".toList
  | .toolCall .. => .str "tool_call".toList
  | .toolResult .. => .str "tool_result".toList
  | .askUser _ => .str "ask_user".toList
  | .confirmWriteMemory _ => .str "confirm_write_memory".toList
  | .confirmCalendarWrite payload =>
    -- `{"type": …, **payload}`
    (getItem payload "type").getD (.str "confirm_calendar_write".toList)
  | .done _ => .str "done".toList
  | .error _ => .str "error".toList

def StreamEvent.isTerminal (e : StreamEvent) : Bool :=
  isText (some e.type) "done" || isText (some e.type) "error"

/-- The events end with a terminal one, the only one, and nothing is raised. -/
structure WellEnded (ending : Ending) (events : List StreamEvent) : Prop where
  one : ∃ before last, events = before ++ [last] ∧ last.isTerminal = true ∧
    ∀ e ∈ before, e.isTerminal = false
  noException : ending ≠ .raised

/-- A result that can be dispatched: if it asks for a calendar confirmation,
its payload is a dict whose type, if it has one, is not a terminal one. -/
def Dispatchable (n : Numerals) (result : Text) : Prop :=
  controlOf n result ≠ .raise ∧ ∀ e, controlOf n result = .event e → e.isTerminal = false

/-- What a turn has read so far does not disturb it. -/
structure Orderly (c : Config) (log : List Action) : Prop where
  /-- The arguments of the tool calls are dicts, or no JSON at all. -/
  arguments : ∀ tc, .request tc ∈ log → argsOf c.numerals tc.arguments ≠ none
  results : ∀ name args result, .execute name args result ∈ log →
    Dispatchable c.numerals result

/-! ## Terminal events -/

def Action.isTerminal : Action → Bool
  | .emit e => e.isTerminal
  | _ => false

/-- No terminal event yet. -/
def Quiet (log : List Action) : Prop := ∀ a ∈ log, a.isTerminal = false

theorem quiet_append {xs ys : List Action} : Quiet (xs ++ ys) ↔ Quiet xs ∧ Quiet ys := by
  unfold Quiet
  simp only [List.mem_append]
  exact ⟨fun h => ⟨fun a ha => h a (Or.inl ha), fun a ha => h a (Or.inr ha)⟩,
    fun h a ha => ha.elim (h.1 a) (h.2 a)⟩

theorem Quiet.events {log : List Action} (h : Quiet log) :
    ∀ e ∈ eventsOf log, e.isTerminal = false :=
  fun e he => h (.emit e) (mem_eventsOf.mp he)

/-- The turn has come to its one terminal event. -/
def Closed (log : List Action) : Prop :=
  ∃ before last, eventsOf log = before ++ [last] ∧ last.isTerminal = true ∧
    ∀ e ∈ before, e.isTerminal = false

theorem Quiet.closed {log : List Action} (h : Quiet log) {e : StreamEvent}
    (he : e.isTerminal = true) : Closed (log ++ [.emit e]) :=
  ⟨eventsOf log, e, eventsOf_append log [.emit e], he, h.events⟩

/-- Nothing may follow a terminal event. -/
theorem not_closed {log : List Action} {e last : StreamEvent} (he : e.isTerminal = true) :
    ¬ Closed (log ++ [.emit e, .emit last]) := by
  rintro ⟨before, last', hevents, -, hbefore⟩
  have hsplit : eventsOf (log ++ [.emit e, .emit last]) = eventsOf log ++ [e] ++ [last] := by
    rw [eventsOf_append]
    simp [eventsOf]
  rw [hsplit] at hevents
  obtain ⟨hinit, -⟩ := List.append_inj' hevents rfl
  have hquiet := hbefore e (by rw [← hinit]; simp)
  rw [he] at hquiet
  exact absurd hquiet (by simp)

/-! ## Orderly logs -/

theorem orderly_append {c : Config} {xs ys : List Action} :
    Orderly c (xs ++ ys) ↔ Orderly c xs ∧ Orderly c ys := by
  constructor
  · intro h
    exact ⟨⟨fun tc ht => h.arguments tc (List.mem_append_left _ ht),
        fun name args result hx => h.results name args result (List.mem_append_left _ hx)⟩,
      ⟨fun tc ht => h.arguments tc (List.mem_append_right _ ht),
        fun name args result hx => h.results name args result (List.mem_append_right _ hx)⟩⟩
  · rintro ⟨hx, hy⟩
    exact ⟨fun tc ht => (List.mem_append.mp ht).elim (hx.arguments tc) (hy.arguments tc),
      fun name args result hr => (List.mem_append.mp hr).elim (hx.results name args result)
        (hy.results name args result)⟩

/-- Actions that read nothing from outside. -/
def Action.isPlain : Action → Bool
  | .request _ => false
  | .execute .. => false
  | _ => true

theorem orderly_of_plain {c : Config} {log : List Action} (h : ∀ a ∈ log, a.isPlain = true) :
    Orderly c log :=
  ⟨fun tc ht => absurd (h _ ht) (by simp [Action.isPlain]),
    fun name args result hx => absurd (h _ hx) (by simp [Action.isPlain])⟩

theorem orderly_request {c : Config} {tc : ToolCall} :
    Orderly c [.request tc] ↔ argsOf c.numerals tc.arguments ≠ none := by
  constructor
  · exact fun h => h.arguments tc (by simp)
  · intro h
    refine ⟨fun tc' ht => ?_, fun name args result hx => absurd hx (by simp)⟩
    obtain rfl : tc' = tc := by simpa using ht
    exact h

theorem orderly_runTool {c : Config} {name : Text} {args : List (Text × Json)}
    {result : ToolResult} :
    Orderly c (runToolActions c name args result) ↔ Dispatchable c.numerals result.text := by
  constructor
  · exact fun h => h.results name args result.text (by simp [runToolActions])
  · intro h
    refine ⟨fun tc ht => absurd ht (by simp [runToolActions]), fun name' args' result' hx => ?_⟩
    have hresult : result' = result.text := by
      simp [runToolActions] at hx
      exact hx.2.2
    rw [hresult]
    exact h

theorem quiet_runTool (c : Config) (name : Text) (args : List (Text × Json))
    (result : ToolResult) : Quiet (runToolActions c name args result) := by
  intro a ha
  simp only [runToolActions, List.mem_cons, List.not_mem_nil, or_false] at ha
  rcases ha with rfl | rfl | rfl | rfl
  · rfl
  · rfl
  · rfl
  · rfl

/-! ## The invariant -/

/-- A turn under way has met nothing that disturbs it; one that has ended is
closed unless it has, and raises only if it has. -/
def Kept (c : Config) (m : Moment) : Prop :=
  match m.point with
  | .ended .raised => ¬ Orderly c m.turn.log
  | .ended _ => Orderly c m.turn.log ↔ Closed m.turn.log
  | _ => Orderly c m.turn.log ∧ Quiet m.turn.log

/-- Reads nothing from outside and ends nothing. -/
def Action.isInert (a : Action) : Bool := a.isPlain && !a.isTerminal

/-- Inert actions change nothing. -/
theorem extend {c : Config} {log log' more : List Action} (h : Orderly c log ∧ Quiet log)
    (heq : log' = log ++ more) (hmore : more.all Action.isInert = true) :
    Orderly c log' ∧ Quiet log' := by
  rw [List.all_eq_true] at hmore
  rw [heq]
  refine ⟨orderly_append.mpr ⟨h.1, orderly_of_plain fun a ha => ?_⟩,
    quiet_append.mpr ⟨h.2, fun a ha => ?_⟩⟩
  · exact (Bool.and_eq_true_iff.mp (hmore a ha)).1
  · simpa using (Bool.and_eq_true_iff.mp (hmore a ha)).2

/-- Inert actions, then a terminal event. -/
def closes : List Action → Bool
  | [] => false
  | [a] => a.isPlain && a.isTerminal
  | a :: b :: rest => a.isInert && closes (b :: rest)

theorem close {c : Config} {log log' more : List Action} (h : Orderly c log ∧ Quiet log)
    (heq : log' = log ++ more) (hmore : closes more = true) : Orderly c log' ↔ Closed log' := by
  induction more generalizing log with
  | nil => exact absurd hmore (by simp [closes])
  | cons a rest ih =>
    cases rest with
    | nil =>
      rw [closes, Bool.and_eq_true] at hmore
      rw [heq]
      refine iff_of_true (orderly_append.mpr ⟨h.1, orderly_of_plain fun b hb => ?_⟩) ?_
      · rw [List.mem_singleton.mp hb]
        exact hmore.1
      · cases a with
        | emit e => exact h.2.closed hmore.2
        | _ => exact absurd hmore.2 (by simp [Action.isTerminal])
    | cons b rest =>
      rw [closes, Bool.and_eq_true] at hmore
      have ha : [a].all Action.isInert = true := by
        rw [List.all_cons, hmore.1]
        rfl
      exact ih (extend h rfl ha) (by simpa using heq) hmore.2

theorem startStatus_inert (c : Config) (p : Plan) (idx : Nat) (model : Text) :
    Action.isInert (.emit (startStatus c p idx model)) = true :=
  startStatus_of (fun e => Action.isInert (.emit e) = true) (fun _ => rfl) (fun _ => rfl) c p idx
    model

/-- A call whose arguments are a dict changes nothing. -/
theorem request_kept {c : Config} {log : List Action} {tc : ToolCall}
    {args : List (Text × Json)} (h : Orderly c log ∧ Quiet log)
    (hargs : argsOf c.numerals tc.arguments = some args) :
    Orderly c (log ++ [.request tc]) ∧ Quiet (log ++ [.request tc]) := by
  refine ⟨orderly_append.mpr ⟨h.1, orderly_request.mpr (by rw [hargs]; simp)⟩,
    quiet_append.mpr ⟨h.2, ?_⟩⟩
  intro a ha
  rw [List.mem_singleton.mp ha]
  rfl

/-- Nor does a tool whose result can be dispatched. -/
theorem runTool_kept {c : Config} {s : Turn} {tc : ToolCall} {args : List (Text × Json)}
    {result : ToolResult} (h : Orderly c s.log ∧ Quiet s.log)
    (hargs : argsOf c.numerals tc.arguments = some args)
    (hdispatch : Dispatchable c.numerals result.text) :
    Orderly c (runTool c (s.act (.request tc)) tc.name args result).log ∧
      Quiet (runTool c (s.act (.request tc)) tc.name args result).log := by
  have hrequest := request_kept h hargs
  rw [runTool_log]
  exact ⟨orderly_append.mpr ⟨hrequest.1, orderly_runTool.mpr hdispatch⟩,
    quiet_append.mpr ⟨hrequest.2, quiet_runTool c tc.name args result⟩⟩

theorem Kept.step {c : Config} {p : Plan} (m m' : Moment) (hstep : Step c p m m')
    (h : Kept c m) : Kept c m' := by
  cases hstep with
  | start idx model s =>
    refine extend h (startModel_log s c p idx model) ?_
    rw [List.all_cons, List.all_cons, startStatus_inert]
    rfl
  | exhausted s => exact close h (Turn.emit_log s _) rfl
  | limit a s => exact close h (Turn.emit_log s _) rfl
  | overBudget a s hcheck => exact close h (Turn.stopFor_log s _) rfl
  | call a s hcheck => exact extend h (Turn.callModel_log s a _) rfl
  | text a r s t hcheck => exact extend h (Turn.sendToken_log s t) rfl
  | textOver a r s t hcheck =>
    exact close (extend h (Turn.sendToken_log s t) rfl) (Turn.stopFor_log _ _) rfl
  | late a r s => exact close h (Turn.stopFor_log s _) rfl
  | toolCalls a r s calls => exact h
  | usage a r s items => exact extend h (Turn.act_log s _) rfl
  | interrupted a r s hstarted => exact close h (Turn.emit_log s _) rfl
  | broken a r s hstarted => exact h
  | requested a r s ms hcalls =>
    exact extend (extend h (Turn.emit_log s (modelCallStatus a.model r.toolCalls ms)) rfl)
      (discardPreamble_log _ r) (discardActions_all rfl r)
  | empty a r s ms hcalls hempty => exact extend h (Turn.emit_log s _) rfl
  | answered a r s ms hcalls hne =>
    exact close (extend (extend h (Turn.emit_log s (modelCallStatus a.model r.toolCalls ms)) rfl)
      rfl (cacheActions_all (fun _ _ => rfl) p a r)) (finish_log _ p a r) rfl
  | badArguments a usage tc rest s hargs =>
    intro horderly
    exact orderly_request.mp (orderly_append.mp horderly).2 hargs
  | guarded a usage tc rest s hargs hlimit =>
    exact extend (request_kept h hargs) rfl rfl
  | badControl a usage tc rest s result hargs hlimit hcontrol =>
    intro horderly
    rw [runTool_log] at horderly
    exact (orderly_runTool.mp (orderly_append.mp horderly).2).1 hcontrol
  | @controlled a usage tc rest s args result e hargs hlimit hcontrol =>
    cases he : e.isTerminal with
    | true =>
      refine iff_of_false (fun horderly => ?_) ?_
      · simp only [Turn.emit_log, runTool_log, orderly_append, orderly_runTool] at horderly
        have hquiet := horderly.1.1.2.2 e hcontrol
        rw [he] at hquiet
        exact absurd hquiet (by simp)
      · simp only [Turn.emit_log, List.append_assoc, List.singleton_append]
        exact not_closed he
    | false =>
      have hdispatch : Dispatchable c.numerals result.text := by
        refine ⟨by rw [hcontrol]; simp, fun e' he' => ?_⟩
        rw [hcontrol] at he'
        rw [← (Control.event.inj he')]
        exact he
      have hevent : [Action.emit e].all Action.isInert = true := by
        simp [Action.isInert, Action.isPlain, Action.isTerminal, he]
      exact close (extend (runTool_kept h hargs hdispatch) (Turn.emit_log _ e) hevent)
        (Turn.emit_log _ _) rfl
  | executed a usage tc rest s result hargs hlimit hcontrol =>
    have hdispatch : Dispatchable c.numerals result.text :=
      ⟨by rw [hcontrol]; simp, fun e' he' => absurd he' (by rw [hcontrol]; simp)⟩
    exact extend (runTool_kept h hargs hdispatch) (Turn.emit_log _ _) rfl
  | callsDone a usage s => exact h

theorem Kept.ended {c : Config} {e : Ending} {s : Turn} (h : Kept c ⟨.ended e, s⟩)
    (he : e ≠ .raised) : Orderly c s.log ↔ Closed s.log := by
  cases e with
  | raised => exact absurd rfl he
  | answered response model => exact h
  | asked => exact h
  | failed => exact h

/-! ## When a turn is well ended -/

theorem closed_iff {ending : Ending} {log : List Action} (h : ending ≠ .raised) :
    WellEnded ending (eventsOf log) ↔ Closed log :=
  ⟨fun hended => hended.one, fun hclosed => ⟨hclosed, h⟩⟩

/-- The statuses before the loops. -/
theorem kept_of_statuses {c : Config} {events : List StreamEvent}
    (h : ∀ e ∈ events, ∃ stage detail, e = .info stage detail) :
    Orderly c (events.map .emit) ∧ Quiet (events.map .emit) := by
  have hempty : Orderly c [] ∧ Quiet [] := ⟨orderly_of_plain (by simp), fun a ha => by simp at ha⟩
  refine extend hempty (List.nil_append _).symm (List.all_eq_true.mpr fun a ha => ?_)
  obtain ⟨e, he, rfl⟩ := List.mem_map.mp ha
  obtain ⟨stage, detail, rfl⟩ := h e he
  rfl

/-- A turn ends with its one terminal event, and without an exception, if and
only if the image can be decoded and nothing it has read disturbs it. -/
theorem wellEnded_iff (c : Config) (r : Request) (w : World) :
    WellEnded (generateStream c r w).1 (eventsOf (generateStream c r w).2.log) ↔
      userMessage c r w ≠ none ∧ Orderly c (generateStream c r w).2.log := by
  cases generateStream_begins c r w with
  | cached cached huse hcached h =>
    have huser : userMessage c r w ≠ none := by
      simp only [Request.useCache, Bool.and_eq_true, Bool.not_eq_true'] at huse
      simp [userMessage, huse.1.2]
    have hempty : Orderly c [] ∧ Quiet [] := ⟨orderly_of_plain (by simp), fun a ha => by simp at ha⟩
    have hserved : Orderly c (serveCached cached {}).log ∧ Closed (serveCached cached {}).log := by
      have htokens : Orderly c (serveCached cached {}).log ↔ Closed (serveCached cached {}).log :=
        close hempty (List.nil_append _).symm rfl
      have horderly : Orderly c (serveCached cached {}).log := orderly_of_plain fun a ha => by
        simp only [serveCached, Turn.emit_log, List.mem_append, List.mem_singleton,
          List.not_mem_nil, false_or] at ha
        rcases ha with (rfl | rfl) | rfl
        · rfl
        · rfl
        · rfl
      exact ⟨horderly, htokens.mp horderly⟩
    rw [h]
    exact iff_of_true ⟨hserved.2, by simp⟩ ⟨huser, hserved.1⟩
  | undecodable huser h =>
    rw [h]
    exact iff_of_false (fun hended => hended.noException rfl) fun hgood => hgood.1 huser
  | runs user status huser hplan h =>
    have hkept := Steps.invariant Kept.step h (kept_of_statuses hplan)
    have hsome : userMessage c r w ≠ none := by rw [huser]; simp
    by_cases hraised : (generateStream c r w).1 = .raised
    · rw [hraised] at hkept
      exact iff_of_false (fun hended => hended.noException hraised) fun hgood => hkept hgood.2
    · rw [closed_iff hraised, ← hkept.ended hraised, and_iff_right hsome]

/-- A model that writes a list where the arguments should be. -/
theorem listArguments_not_wellEnded :
    ¬ WellEnded
      (generateStream smallConfig (question "Any news?" [])
        (meets [callsTool "web_search" "[]", answers "None."] [])).1
      (eventsOf (generateStream smallConfig (question "Any news?" [])
        (meets [callsTool "web_search" "[]", answers "None."] [])).2.log) :=
  fun h => h.noException rfl

end Eidetic.Stream
