import Eidetic.Lib.Ration
import Eidetic.Lib.Trace
import Eidetic.Stream.Step

/-!
# The tool calls of a turn

Which of the tool calls that a turn comes to are executed: of each name with
the same arguments, under each model of the chain, as many as the limit of the
tool allows (`calls_rationed`). Nothing else decides it.

Most of what is logged says nothing of the tool calls, so the log is read
through a `View`: which calls were come to, which were executed, and what stood
when the last one was. What is looked past changes no view (`isAside_ignored`).
The invariant is `Tallied`, with `Under` for the counts that the model under way
has in its locals, and the step lemma `Tally.step` has a case for each
transition that changes the view: a call is counted and let through, or it is
counted and the guard trips.

Both results on tool calls begin here: `Stream.Repeats` counts the executions of
one signature, and `Stream.Offered` asks what was offered when a call was come
to.
-/

namespace Eidetic.Stream

open Eidetic.Py Eidetic.Context Eidetic.Tools Eidetic.Lib

/-- What holds when a tool call is come to. -/
structure Standing where
  /-- The place of the model in the chain, from 1 on. -/
  model : Nat := 0
  /-- The names of the schemas that were passed with the last call of the model. -/
  offered : List Text := []
  /-- The loop guard has tripped under this model. -/
  withdrawn : Bool := false

/-- A tool call and what holds when it is come to. -/
structure ToolUse where
  standing : Standing
  signature : Signature

def ToolUse.key (x : ToolUse) : Nat × Signature := (x.standing.model, x.signature)

/-- The error status of stage `tool`, which only the loop guard sends. -/
def StreamEvent.isLoopGuard : StreamEvent → Bool
  | .status stage _ level _ => stage == "tool".toList && level == "error".toList
  | _ => false

def Standing.next (s : Standing) : Action → Standing
  | .attempt _ => { model := s.model + 1 }
  | .call _ _ tools => { s with offered := tools.getD [] }
  | .emit e => { s with withdrawn := s.withdrawn || e.isLoopGuard }
  | _ => s

/-- The tool calls that a turn comes to; one whose arguments are JSON but no
dict is none. -/
def requested (c : Config) : Observer Action Standing ToolUse where
  next := Standing.next
  note s a :=
    match a with
    | .request tc =>
      match argsOf c.numerals tc.arguments with
      | some args => [⟨s, signatureOf c.numerals tc.name args⟩]
      | none => []
    | _ => []

/-- The tool calls that are executed. -/
def executed (c : Config) : Observer Action Standing ToolUse where
  next := Standing.next
  note s a :=
    match a with
    | .execute name args _ => [⟨s, signatureOf c.numerals name args⟩]
    | _ => []

/-- The limit of a tool, for its calls with these arguments under this model. -/
def keyLimit (c : Config) (key : Nat × Signature) : Nat := callLimit c.lower key.2.1

/-! ## What is seen of a log -/

structure View where
  requests : List ToolUse
  uses : List ToolUse
  standing : Standing

def viewOf (c : Config) (log : List Action) : View where
  requests := (requested c).notes {} log
  uses := (executed c).notes {} log
  standing := (requested c).after {} log

variable (c : Config)

theorem viewOf_append (xs ys : List Action) :
    viewOf c (xs ++ ys) =
      ⟨(viewOf c xs).requests ++ (requested c).notes (viewOf c xs).standing ys,
        (viewOf c xs).uses ++ (executed c).notes (viewOf c xs).standing ys,
        (requested c).after (viewOf c xs).standing ys⟩ := by
  unfold viewOf
  rw [Observer.notes_append, Observer.notes_append, Observer.after_append]
  rfl

/-- Actions that are not looked at. -/
def Action.isAside : Action → Bool
  | .emit e => !e.isLoopGuard
  | .usage _ => true
  | .cache .. => true
  | _ => false

theorem isAside_ignored {a : Action} (h : a.isAside = true) :
    (requested c).Ignores a ∧ (executed c).Ignores a := by
  cases a with
  | emit e =>
    have he : e.isLoopGuard = false := by simpa [Action.isAside] using h
    have hnext : ∀ s : Standing, s.next (.emit e) = s := fun s => by
      rw [Standing.next, he, Bool.or_false]
    exact ⟨⟨hnext, fun s => rfl⟩, ⟨hnext, fun s => rfl⟩⟩
  | usage items => exact ⟨⟨fun s => rfl, fun s => rfl⟩, ⟨fun s => rfl, fun s => rfl⟩⟩
  | cache response model => exact ⟨⟨fun s => rfl, fun s => rfl⟩, ⟨fun s => rfl, fun s => rfl⟩⟩
  | attempt model => exact absurd h (by simp [Action.isAside])
  | call model messages tools => exact absurd h (by simp [Action.isAside])
  | request tc => exact absurd h (by simp [Action.isAside])
  | execute name args result => exact absurd h (by simp [Action.isAside])

theorem viewOf_aside (log more : List Action) (h : more.all Action.isAside = true) :
    viewOf c (log ++ more) = viewOf c log := by
  rw [List.all_eq_true] at h
  rw [viewOf_append, Observer.notes_ignored fun a ha => (isAside_ignored c (h a ha)).1,
    Observer.notes_ignored fun a ha => (isAside_ignored c (h a ha)).2,
    Observer.after_ignored fun a ha => (isAside_ignored c (h a ha)).1, List.append_nil,
    List.append_nil]

theorem viewOf_attempt (log : List Action) (model : Text) :
    viewOf c (log ++ [.attempt model]) =
      { viewOf c log with standing := { model := (viewOf c log).standing.model + 1 } } := by
  rw [viewOf_append]
  simp [Observer.notes, Observer.after, requested, executed, Standing.next]

theorem viewOf_call (log : List Action) (model : Text) (messages : List Message)
    (tools : Option (List Text)) :
    viewOf c (log ++ [.call model messages tools]) =
      { viewOf c log with
        standing := { (viewOf c log).standing with offered := tools.getD [] } } := by
  rw [viewOf_append]
  simp [Observer.notes, Observer.after, requested, executed, Standing.next]

theorem viewOf_guard (log : List Action) (name : Text) :
    viewOf c (log ++ [.emit (loopGuardStatus name)]) =
      { viewOf c log with
        standing := { (viewOf c log).standing with withdrawn := true } } := by
  have hguard : (loopGuardStatus name).isLoopGuard = true := rfl
  rw [viewOf_append]
  simp [Observer.notes, Observer.after, requested, executed, Standing.next, hguard]

theorem viewOf_request {tc : ToolCall} {args : List (Text × Json)} (log : List Action)
    (hargs : argsOf c.numerals tc.arguments = some args) :
    viewOf c (log ++ [.request tc]) =
      { viewOf c log with
        requests := (viewOf c log).requests
          ++ [⟨(viewOf c log).standing, signatureOf c.numerals tc.name args⟩] } := by
  rw [viewOf_append]
  simp [Observer.notes, Observer.after, requested, executed, Standing.next, hargs]

theorem viewOf_badRequest {tc : ToolCall} (log : List Action)
    (hargs : argsOf c.numerals tc.arguments = none) :
    viewOf c (log ++ [.request tc]) = viewOf c log := by
  rw [viewOf_append]
  simp [Observer.notes, Observer.after, requested, executed, Standing.next, hargs]

theorem viewOf_execute (log : List Action) (name : Text) (args : List (Text × Json))
    (result : Text) :
    viewOf c (log ++ [.execute name args result]) =
      { viewOf c log with
        uses := (viewOf c log).uses
          ++ [⟨(viewOf c log).standing, signatureOf c.numerals name args⟩] } := by
  rw [viewOf_append]
  simp [Observer.notes, Observer.after, requested, executed, Standing.next]

theorem viewOf_runTool (log : List Action) (name : Text) (args : List (Text × Json))
    (result : ToolResult) :
    viewOf c (log ++ runToolActions c name args result) =
      { viewOf c log with
        uses := (viewOf c log).uses
          ++ [⟨(viewOf c log).standing, signatureOf c.numerals name args⟩] } := by
  have hsplit : runToolActions c name args result
      = [.emit (.toolCall name args), .emit (calledStatus c name args)]
        ++ [.execute name args result.text] ++ [.emit (resultStatus name result)] := rfl
  rw [hsplit, ← List.append_assoc, viewOf_aside c _ [_] rfl, ← List.append_assoc,
    viewOf_execute, viewOf_aside c _ [_, _] rfl]

/-! ## The invariant -/

/-- Of the calls come to, those within the limit have been executed, and tools
were offered with none but the schemas of the turn and before the guard tripped. -/
structure Tallied (p : Plan) (v : View) : Prop where
  rationed : v.uses = rationed ToolUse.key (keyLimit c) v.requests
  models : ∀ x ∈ v.requests, x.standing.model ≤ v.standing.model
  offers : ∀ x ∈ v.requests, x.standing.offered ≠ [] →
    x.standing.withdrawn = false ∧ x.standing.offered = p.tools.getD []

/-- The locals of the model under which a call is come to. -/
structure Under (a : Attempt) (v : View) : Prop where
  counts : ∀ sig, a.toolCallCounts sig
    = (v.requests.map ToolUse.key).count (v.standing.model, sig)
  withdrawn : v.standing.withdrawn = a.forceNoTools

/-- The schemas of the last call are those that the attempt passes. -/
def Offering (p : Plan) (a : Attempt) (v : View) : Prop :=
  v.standing.offered = (a.tools p).getD []

/-- What holds at a moment of a turn. -/
def Tally (p : Plan) (m : Moment) : Prop :=
  Tallied c p (viewOf c m.turn.log) ∧
    match m.point with
    | .between => True
    | .round a => Under a (viewOf c m.turn.log)
    | .reading a _ => Under a (viewOf c m.turn.log) ∧ Offering p a (viewOf c m.turn.log)
    | .calling a _ rest => Under a (viewOf c m.turn.log) ∧
        (rest = [] ∨ Offering p a (viewOf c m.turn.log))
    | .ended _ => True

variable {c} {p : Plan}

/-- A call is counted. -/
theorem Under.count {a : Attempt} {v : View} (h : Under a v) (sig : Signature) :
    Under (a.count sig) { v with requests := v.requests ++ [⟨v.standing, sig⟩] } := by
  refine ⟨fun x => ?_, h.withdrawn⟩
  change countCall a.toolCallCounts sig x = _
  rw [List.map_append, List.count_append, ← h.counts x, countCall]
  split
  next heq =>
    subst heq
    exact congrArg (a.toolCallCounts x + ·) (List.count_singleton_self).symm
  next hne =>
    have hnone : [(v.standing.model, sig)].count (v.standing.model, x) = 0 :=
      List.count_eq_zero.mpr (by simpa using hne)
    exact (congrArg (a.toolCallCounts x + ·) hnone).symm

theorem count_self (a : Attempt) (sig : Signature) :
    (a.count sig).toolCallCounts sig = a.toolCallCounts sig + 1 := by
  change countCall a.toolCallCounts sig sig = _
  rw [countCall, if_pos rfl]

theorem Offering.fair {a : Attempt} {v : View} (hunder : Under a v) (h : Offering p a v)
    (hne : v.standing.offered ≠ []) :
    v.standing.withdrawn = false ∧ v.standing.offered = p.tools.getD [] := by
  rw [Offering, Attempt.tools] at h
  split at h
  next hforced => exact absurd h hne
  next hforced => exact ⟨hunder.withdrawn.trans (by simpa using hforced), h⟩

theorem Tallied.requests_concat {a : Attempt} {v : View} (h : Tallied c p v) (sig : Signature)
    (hunder : Under a v) (hoffering : Offering p a v) :
    (∀ x ∈ v.requests ++ [⟨v.standing, sig⟩], x.standing.model ≤ v.standing.model) ∧
    ∀ x ∈ v.requests ++ [⟨v.standing, sig⟩], x.standing.offered ≠ [] →
      x.standing.withdrawn = false ∧ x.standing.offered = p.tools.getD [] := by
  constructor
  · intro x hx
    rcases List.mem_append.mp hx with hx | hx
    · exact h.models x hx
    · rw [List.mem_singleton.mp hx]
  · intro x hx
    rcases List.mem_append.mp hx with hx | hx
    · exact h.offers x hx
    · rw [List.mem_singleton.mp hx]
      exact hoffering.fair hunder

/-- A call above the limit is not executed. -/
theorem Tallied.stop {a : Attempt} {v : View} (h : Tallied c p v) (sig : Signature)
    (hunder : Under a v) (hoffering : Offering p a v)
    (hlimit : callLimit c.lower sig.1 < (a.count sig).toolCallCounts sig) :
    Tallied c p { v with requests := v.requests ++ [⟨v.standing, sig⟩] } := by
  obtain ⟨hmodels, hoffers⟩ := h.requests_concat sig hunder hoffering
  refine ⟨?_, hmodels, hoffers⟩
  rw [count_self, hunder.counts] at hlimit
  rw [rationed_stop (Nat.le_of_lt_succ hlimit)]
  exact h.rationed

/-- A call within the limit is. -/
theorem Tallied.let {a : Attempt} {v : View} (h : Tallied c p v) (sig : Signature)
    (hunder : Under a v) (hoffering : Offering p a v)
    (hlimit : (a.count sig).toolCallCounts sig ≤ callLimit c.lower sig.1) :
    Tallied c p { v with
      requests := v.requests ++ [⟨v.standing, sig⟩]
      uses := v.uses ++ [⟨v.standing, sig⟩] } := by
  obtain ⟨hmodels, hoffers⟩ := h.requests_concat sig hunder hoffering
  refine ⟨?_, hmodels, hoffers⟩
  rw [count_self, hunder.counts] at hlimit
  rw [rationed_let (Nat.lt_of_succ_le hlimit), ← h.rationed]

/-- What is not looked at changes nothing. -/
theorem view_eq {log log' more : List Action} (heq : log' = log ++ more)
    (h : more.all Action.isAside = true) : viewOf c log' = viewOf c log := by
  rw [heq, viewOf_aside c log more h]

theorem Tallied.aside {log log' more : List Action} (h : Tallied c p (viewOf c log))
    (heq : log' = log ++ more) (hmore : more.all Action.isAside = true) :
    Tallied c p (viewOf c log') := by
  rw [view_eq heq hmore]
  exact h

theorem startStatus_aside (idx : Nat) (model : Text) :
    (startStatus c p idx model).isLoopGuard = false :=
  startStatus_of (·.isLoopGuard = false) (fun _ => rfl) (fun _ => rfl) c p idx model

/-- A control event is no status. -/
theorem controlOf_aside {n : Numerals} {result : Text} {e : StreamEvent}
    (h : controlOf n result = .event e) : e.isLoopGuard = false :=
  controlOf_of (·.isLoopGuard = false) (fun _ => rfl) (fun _ => rfl) (fun _ => rfl) h

/-- The view after a call that is executed, whatever is looked past after it. -/
theorem view_runTool {s : Turn} {tc : ToolCall} {args : List (Text × Json)} {result : ToolResult}
    (hargs : argsOf c.numerals tc.arguments = some args) :
    viewOf c (runTool c (s.act (.request tc)) tc.name args result).log =
      { viewOf c s.log with
        requests := (viewOf c s.log).requests
          ++ [⟨(viewOf c s.log).standing, signatureOf c.numerals tc.name args⟩]
        uses := (viewOf c s.log).uses
          ++ [⟨(viewOf c s.log).standing, signatureOf c.numerals tc.name args⟩] } := by
  rw [runTool_log, Turn.act_log, viewOf_runTool, viewOf_request c s.log hargs]

/-- A model that begins has been asked for nothing yet. -/
theorem Tallied.started {s : Turn} (h : Tallied c p (viewOf c s.log)) (idx : Nat) (model : Text) :
    Tally c p ⟨.round (.start c p idx model), startModel c p idx model s⟩ := by
  have hview : viewOf c (startModel c p idx model s).log =
      { viewOf c s.log with standing := { model := (viewOf c s.log).standing.model + 1 } } := by
    have hstatus : [Action.emit (startStatus c p idx model)].all Action.isAside = true := by
      simp [Action.isAside, startStatus_aside]
    rw [startModel_log, ← List.singleton_append, ← List.append_assoc, viewOf_aside c _ _ hstatus,
      viewOf_attempt]
  refine ⟨?_, ?_⟩
  · change Tallied c p (viewOf c (startModel c p idx model s).log)
    rw [hview]
    exact ⟨h.rationed, fun x hx => Nat.le_succ_of_le (h.models x hx), h.offers⟩
  · change Under _ (viewOf c (startModel c p idx model s).log)
    rw [hview]
    refine ⟨fun sig => (List.count_eq_zero.mpr fun hmem => ?_).symm, rfl⟩
    -- all earlier requests belong to models before this one, so its count begins at zero
    obtain ⟨x, hx, hkey⟩ := List.mem_map.mp hmem
    have hle : x.standing.model ≤ (viewOf c s.log).standing.model := h.models x hx
    have hmodel : x.standing.model = (viewOf c s.log).standing.model + 1 :=
      congrArg Prod.fst hkey
    omega

section

variable {a : Attempt} {tc : ToolCall} {s : Turn} {args : List (Text × Json)}

/-- A call above the limit, after which the model is offered no tools. -/
theorem Tallied.guarded {usage : List (Text × Json)} (h : Tallied c p (viewOf c s.log))
    (hunder : Under a (viewOf c s.log)) (hoffering : Offering p a (viewOf c s.log))
    (hargs : argsOf c.numerals tc.arguments = some args)
    (hlimit : callLimit c.lower tc.name < (a.count (signatureOf c.numerals tc.name args)).toolCallCounts
      (signatureOf c.numerals tc.name args)) :
    Tally c p ⟨.calling ((a.count (signatureOf c.numerals tc.name args)).withdrawTools tc.name) usage [],
      (s.act (.request tc)).emit (loopGuardStatus tc.name)⟩ := by
  have hview : viewOf c ((s.act (.request tc)).emit (loopGuardStatus tc.name)).log =
      ⟨(viewOf c s.log).requests
          ++ [⟨(viewOf c s.log).standing, signatureOf c.numerals tc.name args⟩],
        (viewOf c s.log).uses, { (viewOf c s.log).standing with withdrawn := true }⟩ := by
    rw [Turn.emit_log, Turn.act_log, viewOf_guard, viewOf_request c s.log hargs]
  have hstop := h.stop (signatureOf c.numerals tc.name args) hunder hoffering hlimit
  refine ⟨?_, ?_, Or.inl rfl⟩
  · change Tallied c p (viewOf c ((s.act (.request tc)).emit (loopGuardStatus tc.name)).log)
    rw [hview]
    exact ⟨hstop.rationed, hstop.models, hstop.offers⟩
  · change Under _ (viewOf c ((s.act (.request tc)).emit (loopGuardStatus tc.name)).log)
    rw [hview]
    exact ⟨(hunder.count _).counts, rfl⟩

/-- A call within the limit, whose result goes back to the model. -/
theorem Tallied.executed {usage : List (Text × Json)} {rest : List ToolCall} {result : ToolResult}
    (h : Tallied c p (viewOf c s.log)) (hunder : Under a (viewOf c s.log))
    (hoffering : Offering p a (viewOf c s.log)) (hargs : argsOf c.numerals tc.arguments = some args)
    (hlimit : (a.count (signatureOf c.numerals tc.name args)).toolCallCounts
      (signatureOf c.numerals tc.name args) ≤ callLimit c.lower tc.name) :
    Tally c p ⟨.calling ((a.count (signatureOf c.numerals tc.name args)).receive c tc result.text) usage
        rest,
      (runTool c (s.act (.request tc)) tc.name args result).emit
        (.toolResult tc.name (result.text.take 500))⟩ := by
  have hlet := h.let (signatureOf c.numerals tc.name args) hunder hoffering hlimit
  have hcount := hunder.count (signatureOf c.numerals tc.name args)
  have hview := (view_eq (c := c) (Turn.emit_log (runTool c (s.act (.request tc)) tc.name args
    result) (.toolResult tc.name (result.text.take 500))) rfl).trans (view_runTool hargs)
  exact ⟨hview ▸ hlet, hview ▸ ⟨hcount.counts, hcount.withdrawn⟩, Or.inr (hview ▸ hoffering)⟩

end

theorem Tally.step (m m' : Moment) (hstep : Step c p m m') (h : Tally c p m) : Tally c p m' := by
  obtain ⟨htallied, hpoint⟩ := h
  cases hstep with
  | start idx model s => exact htallied.started idx model
  | exhausted s => exact ⟨htallied.aside (Turn.emit_log s _) rfl, trivial⟩
  | limit a s => exact ⟨htallied.aside (Turn.emit_log s _) rfl, trivial⟩
  | overBudget a s hcheck => exact ⟨htallied.aside (Turn.stopFor_log s _) rfl, trivial⟩
  | call a s hcheck =>
    refine ⟨?_, ?_⟩
    · change Tallied c p (viewOf c (s.callModel a (a.tools p)).log)
      rw [Turn.callModel_log, viewOf_call]
      exact ⟨htallied.rationed, htallied.models, htallied.offers⟩
    · change Under a (viewOf c (s.callModel a (a.tools p)).log)
        ∧ Offering p a (viewOf c (s.callModel a (a.tools p)).log)
      rw [Turn.callModel_log, viewOf_call]
      exact ⟨⟨hpoint.counts, hpoint.withdrawn⟩, rfl⟩
  | text a r s t hcheck =>
    have hview := view_eq (c := c) (Turn.sendToken_log s t) rfl
    exact ⟨hview ▸ htallied, hview ▸ hpoint⟩
  | textOver a r s t hcheck =>
    exact ⟨(htallied.aside (Turn.sendToken_log s t) rfl).aside (Turn.stopFor_log _ _) rfl, trivial⟩
  | late a r s => exact ⟨htallied.aside (Turn.stopFor_log s _) rfl, trivial⟩
  | toolCalls a r s calls => exact ⟨htallied, hpoint⟩
  | usage a r s items =>
    have hview := view_eq (c := c) (Turn.act_log s (.usage items)) rfl
    exact ⟨hview ▸ htallied, hview ▸ hpoint⟩
  | interrupted a r s hstarted => exact ⟨htallied.aside (Turn.emit_log s _) rfl, trivial⟩
  | broken a r s hstarted => exact ⟨htallied, trivial⟩
  | requested a r s ms hcalls =>
    have hview := (view_eq (discardPreamble_log _ r) (discardActions_all rfl r)).trans
      (view_eq (c := c) (Turn.emit_log s (modelCallStatus a.model r.toolCalls ms)) rfl)
    exact ⟨hview ▸ htallied, hview ▸ hpoint.1, Or.inr (hview ▸ hpoint.2)⟩
  | empty a r s ms hcalls hempty => exact ⟨htallied.aside (Turn.emit_log s _) rfl, trivial⟩
  | answered a r s ms hcalls hne =>
    exact ⟨((htallied.aside (Turn.emit_log s (modelCallStatus a.model r.toolCalls ms)) rfl).aside rfl
      (cacheActions_all (fun _ _ => rfl) p a r)).aside (finish_log _ p a r) rfl, trivial⟩
  | badArguments a usage tc rest s hargs =>
    refine ⟨?_, trivial⟩
    change Tallied c p (viewOf c (s.log ++ [.request tc]))
    rw [viewOf_badRequest c s.log hargs]
    exact htallied
  -- the guard: the call is noted as a request, not executed, and no tools are offered on
  | guarded a usage tc rest s hargs hlimit =>
    exact htallied.guarded hpoint.1 (hpoint.2.resolve_left (by simp)) hargs hlimit
  | badControl a usage tc rest s result hargs hlimit hcontrol =>
    refine ⟨?_, trivial⟩
    rw [view_runTool hargs]
    exact htallied.let _ hpoint.1 (hpoint.2.resolve_left (by simp)) hlimit
  | @controlled a usage tc rest s args result e hargs hlimit hcontrol =>
    have hlet := htallied.let (signatureOf c.numerals tc.name args) hpoint.1
      (hpoint.2.resolve_left (by simp)) hlimit
    rw [← view_runTool hargs] at hlet
    have hevent : [Action.emit e].all Action.isAside = true := by
      simp [Action.isAside, controlOf_aside hcontrol]
    exact ⟨(hlet.aside (Turn.emit_log _ e) hevent).aside (Turn.emit_log _ _) rfl, trivial⟩
  -- executed, so still within the limit; the next one is counted one higher
  | executed a usage tc rest s result hargs hlimit hcontrol =>
    exact htallied.executed hpoint.1 (hpoint.2.resolve_left (by simp)) hargs hlimit
  | callsDone a usage s => exact ⟨htallied, ⟨hpoint.1.counts, hpoint.1.withdrawn⟩⟩

/-! ## The whole turn -/

theorem tallied_nil : Tallied c p (viewOf c []) :=
  ⟨rfl, fun x hx => absurd hx (by simp [viewOf, Observer.notes]),
    fun x hx => absurd hx (by simp [viewOf, Observer.notes])⟩

theorem info_aside (stage : String) (detail : Text) :
    (StreamEvent.info stage detail).isLoopGuard = false := by
  have hlevel : ("info".toList == "error".toList) = false := by decide
  change (stage.toList == "tool".toList && "info".toList == "error".toList) = false
  rw [hlevel, Bool.and_false]

/-- Of the calls that a turn comes to, those within the limit are executed; and
a call is offered the schemas of the turn, or none. -/
theorem calls_tallied (c : Config) (r : Request) (w : World) :
    ∃ p : Plan, p.tools = offeredTools c r w ∧
      Tallied c p (viewOf c (generateStream c r w).2.log) := by
  cases generateStream_begins c r w with
  | cached cached huse hcached h =>
    rw [h]
    exact ⟨planOf c r w (.ofText .user r.message), rfl,
      tallied_nil.aside (List.nil_append _).symm rfl⟩
  | undecodable huser h =>
    rw [h]
    exact ⟨planOf c r w (.ofText .user r.message), rfl,
      tallied_nil.aside (List.nil_append _).symm rfl⟩
  | runs user status huser hplan h =>
    have hstart : Tally c (planOf c r w user)
        ⟨.between, ⟨(routeStatus c r w :: status).map .emit, 0, 0, 0⟩⟩ := by
      refine ⟨tallied_nil.aside (List.nil_append _).symm (List.all_eq_true.mpr fun a ha => ?_),
        trivial⟩
      obtain ⟨e, he, rfl⟩ := List.mem_map.mp ha
      obtain ⟨stage, detail, rfl⟩ := hplan e he
      simp [Action.isAside, info_aside]
    exact ⟨planOf c r w user, rfl, (Steps.invariant Tally.step h hstart).1⟩

end Eidetic.Stream
