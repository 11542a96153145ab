import Eidetic.Stream.Turn
import Mathlib.Logic.Relation

/-!
# What a turn can do

The transitions of a turn, one for each thing the loops of `generate_stream`
can do next, and `generateStream_steps`: the loops do nothing else. What holds
of every turn is proved from the transitions.

A `Point` says where the loops are and with which locals; a `Step` takes it on,
with what it appends to the log. The lemmas about the loops follow their
nesting: chunks, calls of a round, a round, the rounds of a model, and the
models, each by induction on its list or fuel (`readChunks_steps`,
`runCalls_steps`, `round_steps`, `rounds_steps`, `models_steps`). Before the
loops there are three cases (`Begins`): the turn is served from the cache, the
image cannot be decoded, or some status events come first.

A result about turns then gives its invariant at a point, shows that each
transition keeps it (`Steps.invariant`), and reads the result off where the turn
has ended. The invariants of the other modules of this part, `Tallied`,
`Within`, `Dispatched`, `Course` and `Kept`, are all of this kind.
-/

namespace Eidetic.Stream

open Eidetic.Py Eidetic.Context Eidetic.Tools

/-- Where a turn stands. -/
inductive Point
  /-- Before the next model of the chain. -/
  | between
  /-- Before a round of a model. -/
  | round (a : Attempt)
  /-- In the chunk loop. -/
  | reading (a : Attempt) (r : Reading)
  /-- In the loop over the tool calls, of which these are left. -/
  | calling (a : Attempt) (usage : List (Text × Json)) (rest : List ToolCall)
  | ended (e : Ending)

structure Moment where
  point : Point
  turn : Turn

variable (c : Config) (p : Plan)

/-- The transitions. -/
inductive Step : Moment → Moment → Prop
  | start (idx : Nat) (model : Text) (s : Turn) :
      Step ⟨.between, s⟩ ⟨.round (.start c p idx model), startModel c p idx model s⟩
  | exhausted (s : Turn) :
      Step ⟨.between, s⟩ ⟨.ended .failed, s.emit (.error "All models failed".toList)⟩
  | limit (a : Attempt) (s : Turn) :
      Step ⟨.round a, s⟩ ⟨.ended .failed, s.emit (.error "Tool loop limit reached".toList)⟩
  | overBudget (a : Attempt) (s : Turn) {elapsed : Rat} {reason : Text}
      (h : checkTurnBudget c elapsed s.chars = some reason) :
      Step ⟨.round a, s⟩ ⟨.ended .failed, s.stopFor reason⟩
  | call (a : Attempt) (s : Turn) {elapsed : Rat} (h : checkTurnBudget c elapsed s.chars = none) :
      Step ⟨.round a, s⟩ ⟨.reading a {}, s.callModel a (a.tools p)⟩
  | text (a : Attempt) (r : Reading) (s : Turn) (t : Text) {elapsed : Rat}
      (h : checkTurnBudget c elapsed (s.sendToken t).chars = none) :
      Step ⟨.reading a r, s⟩
        ⟨.reading a { r with started := true, accumulated := r.accumulated ++ [t] }, s.sendToken t⟩
  | textOver (a : Attempt) (r : Reading) (s : Turn) (t : Text) {elapsed : Rat} {reason : Text}
      (h : checkTurnBudget c elapsed (s.sendToken t).chars = some reason) :
      Step ⟨.reading a r, s⟩ ⟨.ended .failed, (s.sendToken t).stopFor reason⟩
  | late (a : Attempt) (r : Reading) (s : Turn) :
      Step ⟨.reading a r, s⟩ ⟨.ended .failed, s.stopFor (connectionBudgetReason c)⟩
  | toolCalls (a : Attempt) (r : Reading) (s : Turn) (calls : List ToolCall) :
      Step ⟨.reading a r, s⟩ ⟨.reading a { r with toolCalls := calls }, s⟩
  | usage (a : Attempt) (r : Reading) (s : Turn) (items : List (Text × Json)) :
      Step ⟨.reading a r, s⟩ ⟨.reading a { r with usage := items }, s.act (.usage items)⟩
  | interrupted (a : Attempt) (r : Reading) (s : Turn) (h : r.started = true) :
      Step ⟨.reading a r, s⟩ ⟨.ended .failed, s.emit (.error "Stream interrupted".toList)⟩
  | broken (a : Attempt) (r : Reading) (s : Turn) (h : r.started = false) :
      Step ⟨.reading a r, s⟩ ⟨.between, s⟩
  | requested (a : Attempt) (r : Reading) (s : Turn) (ms : Nat) (h : r.toolCalls ≠ []) :
      Step ⟨.reading a r, s⟩ ⟨.calling a r.usage r.toolCalls,
        discardPreamble r (s.emit (modelCallStatus a.model r.toolCalls ms))⟩
  | empty (a : Attempt) (r : Reading) (s : Turn) (ms : Nat) (hcalls : r.toolCalls = [])
      (h : r.accumulated = []) :
      Step ⟨.reading a r, s⟩ ⟨.between, s.emit (modelCallStatus a.model r.toolCalls ms)⟩
  | answered (a : Attempt) (r : Reading) (s : Turn) (ms : Nat) (hcalls : r.toolCalls = [])
      (h : r.accumulated ≠ []) :
      Step ⟨.reading a r, s⟩
        ⟨.ended (finish p a r (s.emit (modelCallStatus a.model r.toolCalls ms))).1,
          (finish p a r (s.emit (modelCallStatus a.model r.toolCalls ms))).2⟩
  | badArguments (a : Attempt) (usage : List (Text × Json)) (tc : ToolCall) (rest : List ToolCall)
      (s : Turn) (h : argsOf c.numerals tc.arguments = none) :
      Step ⟨.calling a usage (tc :: rest), s⟩ ⟨.ended .raised, s.act (.request tc)⟩
  | guarded (a : Attempt) (usage : List (Text × Json)) (tc : ToolCall) (rest : List ToolCall)
      (s : Turn) {args : List (Text × Json)} (hargs : argsOf c.numerals tc.arguments = some args)
      (h : callLimit c.lower tc.name
        < (a.count (signatureOf c.numerals tc.name args)).toolCallCounts
            (signatureOf c.numerals tc.name args)) :
      Step ⟨.calling a usage (tc :: rest), s⟩
        ⟨.calling ((a.count (signatureOf c.numerals tc.name args)).withdrawTools tc.name) usage [],
          (s.act (.request tc)).emit (loopGuardStatus tc.name)⟩
  | badControl (a : Attempt) (usage : List (Text × Json)) (tc : ToolCall) (rest : List ToolCall)
      (s : Turn) {args : List (Text × Json)} (result : ToolResult)
      (hargs : argsOf c.numerals tc.arguments = some args)
      (hlimit : (a.count (signatureOf c.numerals tc.name args)).toolCallCounts
        (signatureOf c.numerals tc.name args) ≤ callLimit c.lower tc.name)
      (h : controlOf c.numerals result.text = .raise) :
      Step ⟨.calling a usage (tc :: rest), s⟩
        ⟨.ended .raised, runTool c (s.act (.request tc)) tc.name args result⟩
  | controlled (a : Attempt) (usage : List (Text × Json)) (tc : ToolCall) (rest : List ToolCall)
      (s : Turn) {args : List (Text × Json)} (result : ToolResult) {e : StreamEvent}
      (hargs : argsOf c.numerals tc.arguments = some args)
      (hlimit : (a.count (signatureOf c.numerals tc.name args)).toolCallCounts
        (signatureOf c.numerals tc.name args) ≤ callLimit c.lower tc.name)
      (h : controlOf c.numerals result.text = .event e) :
      Step ⟨.calling a usage (tc :: rest), s⟩
        ⟨.ended .asked, ((runTool c (s.act (.request tc)) tc.name args result).emit e).emit
          (doneEvent (a.count (signatureOf c.numerals tc.name args)) usage)⟩
  | executed (a : Attempt) (usage : List (Text × Json)) (tc : ToolCall) (rest : List ToolCall)
      (s : Turn) {args : List (Text × Json)} (result : ToolResult)
      (hargs : argsOf c.numerals tc.arguments = some args)
      (hlimit : (a.count (signatureOf c.numerals tc.name args)).toolCallCounts
        (signatureOf c.numerals tc.name args) ≤ callLimit c.lower tc.name)
      (h : controlOf c.numerals result.text = .none) :
      Step ⟨.calling a usage (tc :: rest), s⟩
        ⟨.calling ((a.count (signatureOf c.numerals tc.name args)).receive c tc result.text) usage
          rest,
          (runTool c (s.act (.request tc)) tc.name args result).emit
            (.toolResult tc.name (result.text.take 500))⟩
  | callsDone (a : Attempt) (usage : List (Text × Json)) (s : Turn) :
      Step ⟨.calling a usage [], s⟩
        ⟨.round { a with toolMessages := p.trim c a.model a.toolMessages }, s⟩

/-- Any number of transitions. -/
abbrev Steps : Moment → Moment → Prop := Relation.ReflTransGen (Step c p)

variable {c p}

/-- What every transition preserves holds at every moment. -/
theorem Steps.invariant {I : Moment → Prop} (hstep : ∀ m m', Step c p m m' → I m → I m')
    {m m' : Moment} (h : Steps c p m m') (hm : I m) : I m' := by
  induction h with
  | refl => exact hm
  | tail _ hlast ih => exact hstep _ _ hlast ih

/-! ## What is logged -/

theorem mem_eventsOf {log : List Action} {e : StreamEvent} :
    e ∈ eventsOf log ↔ .emit e ∈ log := by
  unfold eventsOf
  rw [List.mem_filterMap]
  constructor
  · rintro ⟨a, ha, he⟩
    cases a with
    | emit e' =>
      obtain rfl : e' = e := by simpa using he
      exact ha
    | _ => exact absurd he (by simp)
  · exact fun h => ⟨_, h, rfl⟩

theorem mem_eventsOf_cons {log : List Action} {e : StreamEvent} (a : Action)
    (h : e ∈ eventsOf log) : e ∈ eventsOf (a :: log) :=
  mem_eventsOf.mpr (List.mem_cons_of_mem a (mem_eventsOf.mp h))

theorem eventsOf_append (xs ys : List Action) : eventsOf (xs ++ ys) = eventsOf xs ++ eventsOf ys :=
  List.filterMap_append

theorem executionsOf_append (xs ys : List Action) :
    executionsOf (xs ++ ys) = executionsOf xs ++ executionsOf ys :=
  List.filterMap_append

section

variable (s : Turn)

@[simp] theorem Turn.act_log (a : Action) : (s.act a).log = s.log ++ [a] := rfl

@[simp] theorem Turn.emit_log (e : StreamEvent) : (s.emit e).log = s.log ++ [.emit e] := rfl

@[simp] theorem Turn.act_chars (a : Action) : (s.act a).chars = s.chars := rfl

@[simp] theorem Turn.emit_chars (e : StreamEvent) : (s.emit e).chars = s.chars := rfl

@[simp] theorem Turn.sendToken_log (t : Text) : (s.sendToken t).log = s.log ++ [.emit (.token t)] :=
  rfl

@[simp] theorem Turn.sendToken_chars (t : Text) : (s.sendToken t).chars = s.chars + t.length := rfl

@[simp] theorem Turn.callModel_log (a : Attempt) (tools : Option (List Text)) :
    (s.callModel a tools).log = s.log ++ [.call a.model a.toolMessages tools] := rfl

@[simp] theorem Turn.callModel_chars (a : Attempt) (tools : Option (List Text)) :
    (s.callModel a tools).chars = s.chars := rfl

@[simp] theorem Turn.stopFor_log (reason : Text) :
    (s.stopFor reason).log = s.log ++ [.emit (.alert "budget" reason), .emit (.error reason)] := by
  simp [Turn.stopFor]

/-- The status before the rounds of a model. -/
def startStatus (c : Config) (p : Plan) (idx : Nat) (model : Text) : StreamEvent :=
  if 0 < idx then .alert "fallback" ("Falling back → ".toList ++ model)
  else .info "budget" ("Context fitted to ".toList ++ commas (c.getContextLimit model)
    ++ "-tok window (≤".toList ++ commas p.maxOut ++ " out)".toList)

@[simp] theorem startModel_log (c : Config) (p : Plan) (idx : Nat) (model : Text) :
    (startModel c p idx model s).log
      = s.log ++ [.attempt model, .emit (startStatus c p idx model)] := by
  unfold startModel startStatus
  split
  next => simp
  next => simp

@[simp] theorem startModel_chars (c : Config) (p : Plan) (idx : Nat) (model : Text) :
    (startModel c p idx model s).chars = s.chars := by
  unfold startModel
  split
  next => rfl
  next => rfl

/-- What the discarding of a preamble logs. -/
def discardActions (r : Reading) : List Action :=
  if r.accumulated.isEmpty then [] else [.emit .preambleDiscard]

@[simp] theorem discardPreamble_log (r : Reading) :
    (discardPreamble r s).log = s.log ++ discardActions r := by
  unfold discardPreamble discardActions
  split
  next => simp
  next => rfl

@[simp] theorem discardPreamble_chars (r : Reading) : (discardPreamble r s).chars = s.chars := by
  unfold discardPreamble
  split
  next => rfl
  next => rfl

/-- The storing of a response. -/
def cacheActions (p : Plan) (a : Attempt) (r : Reading) : List Action :=
  if p.useCache then [.cache r.accumulated.flatten a.model] else []

@[simp] theorem finish_log (p : Plan) (a : Attempt) (r : Reading) :
    (finish p a r s).2.log = s.log ++ cacheActions p a r ++ [.emit (doneEvent a r.usage)] := by
  unfold finish cacheActions
  dsimp only
  split
  next => simp
  next => simp

@[simp] theorem finish_ending (p : Plan) (a : Attempt) (r : Reading) :
    (finish p a r s).1 = .answered r.accumulated.flatten a.model := rfl

/-- What the call of a tool logs. -/
def runToolActions (c : Config) (name : Text) (args : List (Text × Json)) (result : ToolResult) :
    List Action :=
  [.emit (.toolCall name args), .emit (calledStatus c name args),
    .execute name args result.text, .emit (resultStatus name result)]

@[simp] theorem runTool_log (c : Config) (name : Text) (args : List (Text × Json))
    (result : ToolResult) :
    (runTool c s name args result).log = s.log ++ runToolActions c name args result := by
  simp [runTool, runToolActions]

@[simp] theorem runTool_chars (c : Config) (name : Text) (args : List (Text × Json))
    (result : ToolResult) : (runTool c s name args result).chars = s.chars := rfl

end

/-! ## Forms of what is logged -/

theorem startStatus_of (P : StreamEvent → Prop) (hfallback : ∀ detail, P (.alert "fallback" detail))
    (hbudget : ∀ detail, P (.info "budget" detail)) (c : Config) (p : Plan) (idx : Nat)
    (model : Text) : P (startStatus c p idx model) := by
  unfold startStatus
  split
  next => exact hfallback _
  next => exact hbudget _

theorem discardActions_all {f : Action → Bool} (h : f (.emit .preambleDiscard) = true)
    (r : Reading) : (discardActions r).all f = true := by
  unfold discardActions
  split
  next => rfl
  next => rw [List.all_cons, h]; rfl

theorem mem_cacheActions {p : Plan} {a : Attempt} {r : Reading} {action : Action}
    (h : action ∈ cacheActions p a r) : action = .cache r.accumulated.flatten a.model := by
  unfold cacheActions at h
  split at h
  next => exact List.mem_singleton.mp h
  next => exact absurd h (by simp)

theorem cacheActions_all {f : Action → Bool} (h : ∀ text model, f (.cache text model) = true)
    (p : Plan) (a : Attempt) (r : Reading) : (cacheActions p a r).all f = true := by
  refine List.all_eq_true.mpr fun action haction => ?_
  rw [mem_cacheActions haction]
  exact h _ _

/-- The forms of a control event. -/
theorem controlOf_of (P : StreamEvent → Prop) (hask : ∀ question, P (.askUser question))
    (hwrite : ∀ fact, P (.confirmWriteMemory fact))
    (hcalendar : ∀ payload, P (.confirmCalendarWrite payload)) {n : Numerals} {result : Text}
    {e : StreamEvent} (h : controlOf n result = .event e) : P e := by
  unfold controlOf at h
  split at h
  next => exact Control.event.inj h ▸ hask _
  next =>
    split at h
    next => exact Control.event.inj h ▸ hwrite _
    next =>
      split at h
      next =>
        split at h
        next => exact Control.event.inj h ▸ hcalendar _
        next => exact absurd h (by simp)
      next => exact absurd h (by simp)

/-! ## The loops take these transitions -/

theorem readChunks_steps (a : Attempt) (chunks : List (Chunk × Rat)) (r : Reading) (s : Turn)
    (hr : r.budgetReason = none) :
    ((readChunks c chunks r s).1.budgetReason = none ∧
      Steps c p ⟨.reading a r, s⟩ ⟨.reading a (readChunks c chunks r s).1,
        (readChunks c chunks r s).2⟩) ∨
    ∃ reason, (readChunks c chunks r s).1.budgetReason = some reason ∧
      Steps c p ⟨.reading a r, s⟩ ⟨.ended .failed, (readChunks c chunks r s).2.stopFor reason⟩ := by
  induction chunks generalizing r s with
  | nil => exact Or.inl ⟨hr, .refl⟩
  | cons chunk rest ih =>
    obtain ⟨chunk, elapsed⟩ := chunk
    cases chunk with
    -- the sentinel of the connection ends the round before any later chunk
    | budgetExceeded => exact Or.inr ⟨_, rfl, .single (.late a r s)⟩
    | toolCalls calls =>
      have hstep := Step.toolCalls (c := c) (p := p) a r s calls
      rcases ih { r with toolCalls := calls } s hr with ⟨hnone, hsteps⟩ | ⟨reason, hsome, hsteps⟩
      · exact Or.inl ⟨hnone, .head hstep hsteps⟩
      · exact Or.inr ⟨reason, hsome, .head hstep hsteps⟩
    | usage items =>
      have hstep := Step.usage (c := c) (p := p) a r s items
      rcases ih { r with usage := items } (s.act (.usage items)) hr with
        ⟨hnone, hsteps⟩ | ⟨reason, hsome, hsteps⟩
      · exact Or.inl ⟨hnone, .head hstep hsteps⟩
      · exact Or.inr ⟨reason, hsome, .head hstep hsteps⟩
    | text t =>
      rw [readChunks]
      dsimp only
      split
      -- the token is sent first, and then its length is checked
      next reason hcheck => exact Or.inr ⟨reason, rfl, .single (.textOver a r s t hcheck)⟩
      next hcheck =>
        have hstep := Step.text (p := p) a r s t hcheck
        rcases ih { r with started := true, accumulated := r.accumulated ++ [t] } (s.sendToken t) hr
          with ⟨hnone, hsteps⟩ | ⟨reason, hsome, hsteps⟩
        · exact Or.inl ⟨hnone, .head hstep hsteps⟩
        · exact Or.inr ⟨reason, hsome, .head hstep hsteps⟩

/-- Where the loop over the tool calls leaves the turn. -/
def CallsEnd.point (usage : List (Text × Json)) : CallsEnd → Point
  | .again a => .calling a usage []
  | .stop e => .ended e

theorem runCalls_steps (w : World) (usage : List (Text × Json)) (calls : List ToolCall)
    (a : Attempt) (s : Turn) :
    Steps c p ⟨.calling a usage calls, s⟩
      ⟨(runCalls c w usage calls a s).1.point usage, (runCalls c w usage calls a s).2⟩ := by
  induction calls generalizing a s with
  | nil => exact .refl
  | cons tc rest ih =>
    rw [runCalls]
    dsimp only
    split
    next hargs => exact .single (.badArguments a usage tc rest s hargs)
    next args hargs =>
      split
      next hlimit => exact .single (.guarded a usage tc rest s hargs hlimit)
      next hlimit =>
        have hle := Nat.le_of_not_lt hlimit
        split
        next hcontrol => exact .single (.badControl a usage tc rest s _ hargs hle hcontrol)
        next e hcontrol => exact .single (.controlled a usage tc rest s _ hargs hle hcontrol)
        next hcontrol =>
          exact .head (.executed a usage tc rest s _ hargs hle hcontrol) (ih _ _)

/-- Where a round leaves the turn. -/
def RoundEnd.point : RoundEnd → Point
  | .again a => .round a
  | .nextModel => .between
  | .stop e => .ended e

theorem afterChunks_steps (w : World) (g : Generation) (a : Attempt) (r : Reading) (s : Turn)
    (hr : r.budgetReason = none) :
    Steps c p ⟨.reading a r, s⟩
      ⟨(afterChunks c w p g a r s).1.point, (afterChunks c w p g a r s).2⟩ := by
  unfold afterChunks
  rw [hr]
  dsimp only
  split
  next =>
    split
    next hstarted => exact .single (.interrupted a r s hstarted)
    next hstarted => exact .single (.broken a r s (by simpa using hstarted))
  next =>
    split
    next hcalls =>
      have hne : r.toolCalls ≠ [] := by simpa using hcalls
      have hsteps := runCalls_steps (c := c) (p := p) w r.usage r.toolCalls a
        (discardPreamble r (s.emit (modelCallStatus a.model r.toolCalls g.ms)))
      -- the calls of the round, and then either another round or the end of the turn
      have hall := Relation.ReflTransGen.head (Step.requested (c := c) (p := p) a r s g.ms hne) hsteps
      split
      next a' s' heq =>
        rw [heq] at hall
        exact hall.tail (.callsDone a' r.usage s')
      next e s' heq =>
        rw [heq] at hall
        exact hall
    next hcalls =>
      have hnil : r.toolCalls = [] := by simpa using hcalls
      split
      next hempty => exact .single (.empty a r s g.ms hnil (by simpa using hempty))
      next hempty => exact .single (.answered a r s g.ms hnil (by simpa using hempty))

theorem round_steps (w : World) (a : Attempt) (s : Turn) :
    Steps c p ⟨.round a, s⟩ ⟨(round c w p a s).1.point, (round c w p a s).2⟩ := by
  unfold round
  dsimp only
  split
  next reason hcheck => exact .single (.overBudget a s hcheck)
  next hcheck =>
    have hcall := Step.call (p := p) a s hcheck
    rcases readChunks_steps (p := p) a (w.generations s.calls).chunks {}
        (s.callModel a (a.tools p)) rfl with ⟨hnone, hsteps⟩ | ⟨reason, hsome, hsteps⟩
    · exact .head hcall (hsteps.trans (afterChunks_steps w _ a _ _ hnone))
    · have hafter : afterChunks c w p (w.generations s.calls) a
          (readChunks c (w.generations s.calls).chunks {} (s.callModel a (a.tools p))).1
          (readChunks c (w.generations s.calls).chunks {} (s.callModel a (a.tools p))).2
          = (.stop .failed, (readChunks c (w.generations s.calls).chunks {}
              (s.callModel a (a.tools p))).2.stopFor reason) := by
        unfold afterChunks
        rw [hsome]
      rw [hafter]
      exact .head hcall hsteps

/-- Where the rounds of a model leave the turn. -/
def ModelEnd.point : ModelEnd → Point
  | .nextModel => .between
  | .stop e => .ended e

theorem rounds_steps (w : World) (n : Nat) (a : Attempt) (s : Turn) :
    Steps c p ⟨.round a, s⟩ ⟨(rounds c w p n a s).1.point, (rounds c w p n a s).2⟩ := by
  induction n generalizing a s with
  | zero => exact .single (.limit a s)
  | succ n ih =>
    have hround := round_steps (c := c) (p := p) w a s
    rw [rounds]
    split
    next a' s' heq =>
      rw [heq] at hround
      exact hround.trans (ih a' s')
    next s' heq =>
      rw [heq] at hround
      exact hround
    next e s' heq =>
      rw [heq] at hround
      exact hround

theorem models_steps (w : World) (idx : Nat) (chain : List Text) (s : Turn) :
    Steps c p ⟨.between, s⟩ ⟨.ended (models c w p idx chain s).1, (models c w p idx chain s).2⟩ := by
  induction chain generalizing idx s with
  | nil => exact .single (.exhausted s)
  | cons model rest ih =>
    have hrounds := Relation.ReflTransGen.head (Step.start (c := c) (p := p) idx model s)
      (rounds_steps w maxToolIterations (.start c p idx model) (startModel c p idx model s))
    rw [models]
    split
    next s' heq =>
      rw [heq] at hrounds
      exact hrounds.trans (ih (idx + 1) s')
    next e s' heq =>
      rw [heq] at hrounds
      exact hrounds

/-! ## The whole turn -/

/-- A turn is served from the cache, fails before the loops, or takes the
transitions from a log of statuses. -/
inductive Begins (c : Config) (r : Request) (w : World) : Prop
  | cached (cached : Cache.Cached) (huse : r.useCache = true) (hcached : w.cached = some cached)
      (h : generateStream c r w
        = (.answered cached.response cached.model, serveCached cached {}))
  | undecodable (huser : userMessage c r w = none)
      (h : generateStream c r w = (.raised, Turn.emit {} (routeStatus c r w)))
  | runs (user : Message) (status : List StreamEvent)
      (huser : userMessage c r w = some (user, status))
      (hplan : ∀ e ∈ routeStatus c r w :: status, ∃ stage detail, e = .info stage detail)
      (h : Steps c (planOf c r w user)
        ⟨.between, ⟨(routeStatus c r w :: status).map .emit, 0, 0, 0⟩⟩
        ⟨.ended (generateStream c r w).1, (generateStream c r w).2⟩)

theorem userMessage_status {c : Config} {r : Request} {w : World} {user : Message}
    {status : List StreamEvent} (h : userMessage c r w = some (user, status)) :
    ∀ e ∈ status, ∃ stage detail, e = .info stage detail := by
  intro e he
  have hcases : status = [] ∨ ∃ stage detail, status = [.info stage detail] := by
    unfold userMessage at h
    split at h
    next =>
      split at h
      next =>
        split at h
        next => exact absurd h (by simp)
        next =>
          split at h
          next => exact Or.inr ⟨_, _, (Prod.mk.inj (Option.some.inj h)).2.symm⟩
          next => exact Or.inr ⟨_, _, (Prod.mk.inj (Option.some.inj h)).2.symm⟩
      next => exact Or.inl (Prod.mk.inj (Option.some.inj h)).2.symm
    next => exact Or.inl (Prod.mk.inj (Option.some.inj h)).2.symm
  rcases hcases with rfl | ⟨stage, detail, rfl⟩
  · exact absurd he (by simp)
  · exact ⟨stage, detail, List.mem_singleton.mp he⟩

theorem foldl_emit (events : List StreamEvent) (s : Turn) :
    events.foldl Turn.emit s = { s with log := s.log ++ events.map .emit } := by
  induction events generalizing s with
  | nil => simp
  | cons e events ih =>
    rw [List.foldl_cons, ih]
    simp [Turn.emit, Turn.act]

theorem generateStream_begins (c : Config) (r : Request) (w : World) : Begins c r w := by
  cases hcached : (if r.useCache then w.cached else none) with
  | some cached =>
    have huse : r.useCache = true ∧ w.cached = some cached := by
      split at hcached
      next huse => exact ⟨huse, hcached⟩
      next => exact absurd hcached (by simp)
    refine .cached cached huse.1 huse.2 ?_
    unfold generateStream
    rw [hcached]
  | none =>
    cases huser : userMessage c r w with
    | none =>
      refine .undecodable huser ?_
      unfold generateStream
      rw [hcached]
      dsimp only
      rw [huser]
    | some message =>
      obtain ⟨user, status⟩ := message
      -- the statuses of the prologue are all that the loops find in the log
      have hturn : generateStream c r w = models c w (planOf c r w user) 0 (fallbackChain c r w)
          ⟨(routeStatus c r w :: status).map .emit, 0, 0, 0⟩ := by
        unfold generateStream
        rw [hcached]
        dsimp only
        rw [huser]
        dsimp only
        rw [foldl_emit]
        rfl
      refine .runs user status huser ?_ ?_
      · intro e he
        rcases List.mem_cons.mp he with rfl | he
        · exact ⟨_, _, rfl⟩
        · exact userMessage_status huser e he
      · rw [hturn]
        exact models_steps w 0 _ _

end Eidetic.Stream
