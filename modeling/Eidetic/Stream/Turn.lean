import Eidetic.Cache.Keys
import Eidetic.Context.Build
import Eidetic.Context.ToolLoop
import Eidetic.Tools.Registry

/-!
# `generate_stream`

A turn of the stream generator: the cache lookup, the choice of the fallback
chain and of the tools, and the three nested loops over the models, the rounds
of tool calls and the calls of a round. The loops log what they do: the events
they yield, the calls they make and what comes back.

What the models, the tools and the clock do is the `World`, one entry for each
call of `call_stream` and of a tool, in the order in which they are made.

The log is what all results about a turn speak of. The events are what the route
and the reader see; the calls, the requests for tools and the executions tell
what the loops did in between. Nothing reads the log back: a turn that is under
way has only the counters of the budgets besides (`Turn`), the locals of a model
are `Attempt`, and those of a round `Reading`.

The loops are the source's. A chunk of a model is a token, the tool calls, a
usage or the sentinel of the budget; the loop over the chunks ends with what the
round does next. The calls of a round are run one after the other, up to the
loop guard or a control event. A round ends with another one, with the next
model of the chain, or with the turn (`RoundEnd`, `ModelEnd`), and
`generateStream` adds the prologue before the loops and what is sent when no
model is left.
-/

namespace Eidetic.Stream

open Eidetic.Py Eidetic.Context Eidetic.Tools

/-! ## Events -/

structure DoneEvent where
  model : Text
  cacheHit : Bool
  fallbackUsed : Bool
  webSearched : Bool
  urlFetched : Bool
  /-- `drive_read` and `drive_file_name`, which a cache hit leaves out. -/
  driveRead : Option (Bool × Text)
  /-- Left out when it is empty. -/
  usage : List (Text × Json)

/-- The events a turn yields. -/
inductive StreamEvent
  | status (stage detail level : Text) (ms : Option Nat)
  | token (content : Text)
  | preambleDiscard
  | toolCall (name : Text) (args : List (Text × Json))
  | toolResult (name content : Text)
  | askUser (question : Text)
  | confirmWriteMemory (fact : Text)
  /-- The payload follows the type, and may bring a type of its own. -/
  | confirmCalendarWrite (payload : List (Text × Json))
  | done (d : DoneEvent)
  | error (message : Text)

/-- A `status` event without a duration. -/
def StreamEvent.info (stage : String) (detail : Text) : StreamEvent :=
  .status stage.toList detail "info".toList none

def StreamEvent.alert (stage : String) (detail : Text) : StreamEvent :=
  .status stage.toList detail "error".toList none

/-! ## What a turn is given and what it meets -/

inductive Connector
  | drive
  | calendar
  | gmail
deriving DecidableEq, Repr

/-- The settings of `config`, the static tables it reads, `str.lower` and the
printing of numbers. -/
structure Config where
  numerals : Numerals
  lower : Text → Text
  llama : Text
  coder : Text
  reasoning : Text
  modelVision : Text
  imageOcrEnabled : Bool
  webSearchEnabled : Bool
  streamTurnBudget : Int
  streamMaxTurnTokens : Int
  streamTotalTimeout : Int
  getContextLimit : Text → Int

/-- The arguments of `generate_stream`; an absent text is empty. -/
structure Request where
  message : Text
  context : ContextInput
  modelOverride : Text := []
  maxTokens : Option Int := none
  /-- A temperature or a `top_p` is set. -/
  otherParams : Bool := false
  imageB64 : Text := []
  imageMimeType : Text := []
  /-- `str` of the message content with the image. -/
  imageContent : Text := []
  db : Bool := true
  factSaliences : Saliences := []

/-- What `call_stream` yields. -/
inductive Chunk
  | text (s : Text)
  | toolCalls (calls : List ToolCall)
  | usage (items : List (Text × Json))
  | budgetExceeded

/-- One call of `call_stream`: the time of the turn when it is made, what it
yields and when, and whether it ends by an exception. -/
structure Generation where
  elapsed : Rat := 0
  chunks : List (Chunk × Rat)
  raises : Bool := false
  ms : Nat := 0

structure ToolResult where
  text : Text
  ms : Nat := 0

/-- What a turn meets. -/
structure World where
  cached : Option Cache.Cached := none
  routed : Text
  active : Connector → Bool := fun _ => false
  /-- The latch that Redis holds. -/
  stored : Connector → Bool := fun _ => false
  intentScore : Connector → Rat := fun _ => 0
  /-- What the pasted image reads as, `none` when it cannot be decoded. -/
  ocr : Option Text := none
  generations : Nat → Generation
  results : Nat → ToolResult

/-! ## The log -/

/-- What a turn does, in order. -/
inductive Action
  | emit (event : StreamEvent)
  /-- The loop over the fallback chain comes to a model. -/
  | attempt (model : Text)
  /-- `call_stream`, with the names of the schemas that are passed. -/
  | call (model : Text) (messages : List Message) (tools : Option (List Text))
  /-- A usage record is received. -/
  | usage (items : List (Text × Json))
  /-- The loop over the tool calls comes to one. -/
  | request (tc : ToolCall)
  | execute (name : Text) (args : List (Text × Json)) (result : Text)
  /-- `set_cached_response`. -/
  | cache (response model : Text)

/-- How a turn ends: with a response, with a control event, with an error
event, or by an exception that leaves the generator. -/
inductive Ending
  | answered (response model : Text)
  | asked
  | failed
  | raised

structure Turn where
  log : List Action := []
  /-- `_turn_token_chars`. -/
  chars : Nat := 0
  calls : Nat := 0
  executions : Nat := 0

def Turn.act (s : Turn) (a : Action) : Turn := { s with log := s.log ++ [a] }

def Turn.emit (s : Turn) (e : StreamEvent) : Turn := s.act (.emit e)

/-- The events of a log. -/
def eventsOf (log : List Action) : List StreamEvent :=
  log.filterMap fun a =>
    match a with
    | .emit e => some e
    | _ => none

/-- The execution of a tool. -/
structure Execution where
  name : Text
  args : List (Text × Json)
  result : Text

def executionsOf (log : List Action) : List Execution :=
  log.filterMap fun a =>
    match a with
    | .execute name args result => some ⟨name, args, result⟩
    | _ => none

/-! ## Texts -/

def showInt (n : Int) : Text := (toString n).toList

def showNat (n : Nat) : Text := (toString n).toList

/-- Digits from the last one on, in groups of three. -/
def groupDigits : Text → Text
  | a :: b :: c :: d :: rest => a :: b :: c :: ',' :: groupDigits (d :: rest)
  | digits => digits

/-- `f"{n:,}"`. -/
def commas (n : Int) : Text :=
  (if n < 0 then ['-'] else []) ++ (groupDigits (showNat n.natAbs).reverse).reverse

/-- `model.split("/")[-1]`. -/
def shortName (model : Text) : Text := (model.reverse.takeWhile fun c => c != '/').reverse

/-- `", ".join(names)`. -/
def joinNames (names : List Text) : Text := ", ".toList.intercalate names

/-- `s.index(needle)`, where there is one. -/
def indexOf (needle s : Text) : Option Nat := s.tails.findIdx? fun t => startsWith t needle

/-! ## The prologue -/

def Request.hasImage (r : Request) : Bool := !r.imageB64.isEmpty

/-- `model_params` is not empty. -/
def Request.hasParams (r : Request) : Bool := r.maxTokens.isSome || r.otherParams

def Request.useCache (r : Request) : Bool :=
  r.context.fileChunks.isEmpty && !r.hasImage && !r.hasParams

/-- `config.MODELS` in `FALLBACK_ORDER`. -/
def Config.fallbackOrder (c : Config) : List Text := [c.reasoning, c.coder, c.llama]

/-- The model, and the others after it. -/
def Config.chainFrom (c : Config) (model : Text) : List Text :=
  model :: c.fallbackOrder.filter fun m => m ≠ model

/-- `fallback_chain` and `route_reason`. -/
def routeChain (c : Config) (r : Request) (w : World) : List Text × String :=
  if r.hasImage && !c.imageOcrEnabled then ([c.modelVision], "vision")
  else if !r.modelOverride.isEmpty then (c.chainFrom r.modelOverride, "override")
  else if !r.context.fileIds.isEmpty then ([c.reasoning], "files")
  else if needsMemoryTool c.lower r.message then (c.chainFrom c.reasoning, "memory")
  else if r.context.intent = .task then (c.chainFrom c.reasoning, "task-intent")
  else (c.chainFrom w.routed, "router")

/-- `INTENT_THRESHOLDS`. -/
def intentThreshold : Connector → Rat
  | .drive => 21 / 100
  | .calendar => 29 / 100
  | .gmail => 44 / 100

/-- `FLOOR_THRESHOLD`. -/
def floorThreshold : Rat := 30 / 100

/-- `max(candidates, key=…)`: the first one with the highest score. -/
def topScorer (score : Connector → Rat) : List Connector → Option Connector
  | [] => none
  | c :: rest =>
    match topScorer score rest with
    | none => some c
    | some d => if score c < score d then some d else some c

/-- `_resolve_connector_latches`: at most one connector is latched in a turn. -/
def resolveConnectorLatches (active latched : Connector → Bool) (score : Connector → Rat) :
    Connector → Bool :=
  let candidates := [Connector.drive, .calendar, .gmail].filter fun c => active c && !latched c
  match topScorer score candidates with
  | none => latched
  | some winner => fun c =>
    latched c || (c == winner && intentThreshold winner ≤ score winner
      && floorThreshold ≤ score winner)

/-- A connector is active, as far as the turn can tell. -/
def isActive (r : Request) (w : World) (c : Connector) : Bool := r.db && w.active c

/-- The latches of the turn. -/
def latches (r : Request) (w : World) : Connector → Bool :=
  resolveConnectorLatches (isActive r w) (fun c => isActive r w c && w.stored c) w.intentScore

/-- `_tool_ctx`. -/
def toolContext (c : Config) (r : Request) (w : World) : ToolContext where
  message := r.message
  history := r.context.history.map fun m =>
    match m.content with
    | some (.text s) => some s
    | _ => none
  db := r.db
  fileIds := r.context.fileIds
  isReasoning := (routeChain c r w).1.head? == some c.reasoning
  webSearchEnabled := c.webSearchEnabled
  driveActive := isActive r w .drive
  driveLatched := latches r w .drive
  calendarActive := isActive r w .calendar
  calendarLatched := latches r w .calendar
  gmailActive := isActive r w .gmail
  gmailLatched := latches r w .gmail

/-- `injected_tools`: none in a closing turn. -/
def turnTools (c : Config) (r : Request) (w : World) : List Tool :=
  if r.context.intent = .closing then [] else injectedTools c.lower (toolContext c r w)

/-- `tools`: the schemas, `none` without one. -/
def offeredTools (c : Config) (r : Request) (w : World) : Option (List Text) :=
  let names := (turnTools c r w).map (·.name)
  if names.isEmpty then none else some names

/-- The chain without llama when tools are offered, if a model is left. -/
def fallbackChain (c : Config) (r : Request) (w : World) : List Text :=
  let chain := (routeChain c r w).1
  if (offeredTools c r w).isSome && chain.contains c.llama then
    let toolCapable := chain.filter fun m => m ≠ c.llama
    if toolCapable.isEmpty then chain else toolCapable
  else chain

/-- The user's message and the status of its OCR; `none` for an exception. -/
def userMessage (c : Config) (r : Request) (w : World) : Option (Message × List StreamEvent) :=
  if r.hasImage && !r.imageMimeType.isEmpty then
    if c.imageOcrEnabled then
      match w.ocr with
      | none => none
      | some text =>
        if (strip text).isEmpty then
          some (.ofText .user (r.message ++ "\n\n[No text detected in the pasted image.]".toList),
            [.info "ocr" "No text found in pasted image".toList])
        else
          some (.ofText .user (r.message ++ "\n\n[Image content detected via OCR:]\n".toList
              ++ text.take 5000),
            [.info "ocr" ("OCR extracted ".toList ++ showNat text.length
              ++ " chars from pasted image".toList)])
    else some (⟨.user, some (.parts r.imageContent), [], none⟩, [])
  else some (.ofText .user r.message, [])

/-- `_clean_history`: the note of an aborted turn becomes an apology. -/
def cleanHistory (history : List Message) : List Message :=
  history.map fun m =>
    match m.role, m.content with
    | .assistant, some (.text s) =>
      if startsWith s "⚠️ Turn aborted".toList then
        .ofText .assistant "I encountered an error on that request. Please try again.".toList
      else m
    | _, _ => m

def clarifyService : Connector → Text
  | .drive => "Google Drive (files/documents)".toList
  | .calendar => "Google Calendar (schedule/events)".toList
  | .gmail => "Gmail (email/inbox)".toList

/-- The clarify nudge. -/
def clarifyText (services : Text) : Text :=
  textOf [
    "## Connected services (tools not loaded this turn)\n",
    "\n",
    "The user has connected: "] ++ services ++ textOf [
    ". Those tools are NOT available on THIS turn (the current message wasn't a clear ",
    "request for them). Do NOT claim you lack access to them.\n",
    "\n",
    "When the message is a vague fetch/lookup — a verb like get / find / open / pull up ",
    "/ grab / check / show me / look up with NO clear object AND no obvious referent ",
    "already in this conversation (e.g. \"get that document\", \"pull that up for me\", ",
    "\"find it\", \"any new mail\", \"what's next\") — it most likely wants one of the ",
    "connected services but is too vague to act on. In that case ask ONE short ",
    "clarifying question that NAMES the service — e.g. \"Do you mean a file in your ",
    "Google Drive? Which one?\". A clearer follow-up loads the tools next turn.\n",
    "\n",
    "Escape hatch: if the message clearly refers to something already in THIS ",
    "conversation, or is a normal question/task unrelated to files/schedule/email, just ",
    "answer normally — do NOT ask about the connected services."]

/-- `_rules_block`: the rules of the tools, each once, and the nudge for the
connectors that are active but not latched. -/
def rulesBlock (c : Config) (r : Request) (w : World) : List Text :=
  let rules := ((turnTools c r w).filterMap fun tool => tool.behavioralRules).eraseDups
  let unlatched := [Connector.drive, .calendar, .gmail].filter fun k =>
    isActive r w k && !latches r w k
  if !unlatched.isEmpty && r.context.intent ≠ .closing then
    rules ++ [clarifyText ("; ".toList.intercalate (unlatched.map clarifyService))]
  else rules

/-! ## Budgets -/

def timeBudgetReason (c : Config) : Text :=
  "Response stopped — turn time budget exceeded (".toList ++ showInt c.streamTurnBudget
    ++ "s)".toList

def tokenBudgetReason (c : Config) : Text :=
  "Response stopped — output token budget exceeded (".toList ++ showInt c.streamMaxTurnTokens
    ++ " tok)".toList

def connectionBudgetReason (c : Config) : Text :=
  "Response stopped — connection time budget exceeded (".toList ++ showInt c.streamTotalTimeout
    ++ "s)".toList

/-- `_check_turn_budget`. -/
def checkTurnBudget (c : Config) (elapsed : Rat) (tokenChars : Nat) : Option Text :=
  if 0 < c.streamTurnBudget ∧ (c.streamTurnBudget : Rat) < elapsed then some (timeBudgetReason c)
  else if 0 < c.streamMaxTurnTokens ∧ c.streamMaxTurnTokens < (tokenChars / 4 : Nat) then
    some (tokenBudgetReason c)
  else none

/-- The status and the error of a budget. -/
def Turn.stopFor (s : Turn) (reason : Text) : Turn :=
  (s.emit (.alert "budget" reason)).emit (.error reason)

/-! ## The chunk loop -/

/-- The locals of one round. -/
structure Reading where
  accumulated : List Text := []
  started : Bool := false
  toolCalls : List ToolCall := []
  usage : List (Text × Json) := []
  budgetReason : Option Text := none

/-- A text chunk is counted and passed on. -/
def Turn.sendToken (s : Turn) (t : Text) : Turn :=
  { s with chars := s.chars + t.length }.emit (.token t)

/-- `async for chunk in _gen`. -/
def readChunks (c : Config) : List (Chunk × Rat) → Reading → Turn → Reading × Turn
  | [], r, s => (r, s)
  | (.budgetExceeded, _) :: _, r, s =>
    ({ r with budgetReason := some (connectionBudgetReason c) }, s)
  | (.toolCalls calls, _) :: rest, r, s => readChunks c rest { r with toolCalls := calls } s
  | (.usage items, _) :: rest, r, s =>
    readChunks c rest { r with usage := items } (s.act (.usage items))
  | (.text t, elapsed) :: rest, r, s =>
    let r := { r with started := true, accumulated := r.accumulated ++ [t] }
    let s := s.sendToken t
    match checkTurnBudget c elapsed s.chars with
    | some reason => ({ r with budgetReason := some reason }, s)
    | none => readChunks c rest r s

/-! ## The tool calls of a round -/

/-- The name and the arguments without nulls, as `tool_call_counts` keys them. -/
abbrev Signature := Text × Text

/-- The locals of one model of the chain. -/
structure Attempt where
  model : Text
  fallbackUsed : Bool
  toolMessages : List Message
  toolCallCounts : Signature → Nat := fun _ => 0
  forceNoTools : Bool := false
  webSearched : Bool := false
  urlFetched : Bool := false
  driveRead : Bool := false
  driveFileName : Text := []

/-- `args`: an empty dict for what `json.loads` does not read; `none` for a
value that is no dict, such as the float that `NaN` is read as, whose `.items()`
raises. -/
def argsOf (n : Numerals) (arguments : Text) : Option (List (Text × Json)) :=
  match loads .python n arguments with
  | none => some []
  | some (.obj items) => some items
  | some _ => none

def isNull : Json → Bool
  | .null => true
  | _ => false

/-- `sig`. -/
def signatureOf (n : Numerals) (name : Text) (args : List (Text × Json)) : Signature :=
  (name, dumpsSorted n (.obj (args.filter fun item => !isNull item.2)))

/-- `tool_call_counts[sig] += 1`. -/
def countCall (counts : Signature → Nat) (sig : Signature) : Signature → Nat :=
  fun x => if x = sig then counts sig + 1 else counts x

/-- The system message that takes the tools away. -/
def loopGuardText (name : Text) : Text :=
  textOf ["You have called "] ++ name ++ textOf [
    " repeatedly with identical arguments and it is not returning new information. Stop ",
    "calling tools now and reply to the user directly, using what you already have — ",
    "including relaying verbatim any error or instruction the tool returned (such as ",
    "reconnecting an integration)."]

def doneEvent (a : Attempt) (usage : List (Text × Json)) : StreamEvent :=
  .done ⟨a.model, false, a.fallbackUsed, a.webSearched, a.urlFetched,
    some (a.driveRead, a.driveFileName), usage⟩

/-- What a result's text asks the loop to do. -/
inductive Control
  | none
  | event (e : StreamEvent)
  | raise

/-- The dispatch on the prefix of the result. -/
def controlOf (n : Numerals) (result : Text) : Control :=
  if startsWith result askUserPrefix then .event (.askUser (result.drop askUserPrefix.length))
  else if startsWith result confirmWritePrefix then
    .event (.confirmWriteMemory (result.drop confirmWritePrefix.length))
  else if startsWith result confirmCalendarPrefix then
    -- neither the parsing nor `**payload` is guarded
    match loads .python n (result.drop confirmCalendarPrefix.length) with
    | some (.obj payload) => .event (.confirmCalendarWrite payload)
    | _ => .raise
  else .none

/-- `_drive_file_name`, from the heading of the result. -/
def headingOf (result old : Text) : Text :=
  if startsWith result "--- ".toList then
    match indexOf " ---".toList result with
    | some i => slice result 4 i
    | none => old
  else old

/-- The flags that a result sets, and the messages it appends. -/
def Attempt.receive (c : Config) (a : Attempt) (tc : ToolCall) (result : Text) : Attempt :=
  { a with
    webSearched := a.webSearched || tc.name == "web_search".toList
    urlFetched := a.urlFetched || tc.name == "fetch_url".toList
    driveRead := a.driveRead || tc.name == "drive_read_file".toList
    driveFileName :=
      if tc.name = "drive_read_file".toList then headingOf result a.driveFileName
      else a.driveFileName
    toolMessages := a.toolMessages ++ [callMessage tc, replyMessage tc result]
      ++ (((getTool c.lower tc.name).bind (·.postCallSystemMsg)).map (.ofText .system)).toList }

/-- How the loop over the tool calls ends. -/
inductive CallsEnd
  | again (a : Attempt)
  | stop (e : Ending)

/-- `tool_call_counts` and the loop guard on a call. -/
def Attempt.count (a : Attempt) (sig : Signature) : Attempt :=
  { a with toolCallCounts := countCall a.toolCallCounts sig }

def Attempt.withdrawTools (a : Attempt) (name : Text) : Attempt :=
  { a with
    toolMessages := a.toolMessages ++ [.ofText .system (loopGuardText name)]
    forceNoTools := true }

def loopGuardStatus (name : Text) : StreamEvent :=
  .alert "tool" ("Stopping repeated ".toList ++ name
    ++ " calls — answering with available info".toList)

def calledStatus (c : Config) (name : Text) (args : List (Text × Json)) : StreamEvent :=
  .info "tool" ("Called: ".toList ++ name ++ "(".toList
    ++ (dumpsSorted c.numerals (.obj args)).take 80 ++ ")".toList)

def resultStatus (name : Text) (result : ToolResult) : StreamEvent :=
  .status "tool_result".toList (name ++ ": ".toList ++ result.text.take 100) "info".toList
    (some result.ms)

/-- The call of a tool, with the events around it. -/
def runTool (c : Config) (s : Turn) (name : Text) (args : List (Text × Json))
    (result : ToolResult) : Turn :=
  let s := (s.emit (.toolCall name args)).emit (calledStatus c name args)
  let s := { s with executions := s.executions + 1 }.act (.execute name args result.text)
  s.emit (resultStatus name result)

/-- `for tc in tool_calls_done`. -/
def runCalls (c : Config) (w : World) (usage : List (Text × Json)) :
    List ToolCall → Attempt → Turn → CallsEnd × Turn
  | [], a, s => (.again a, s)
  | tc :: rest, a, s =>
    let s := s.act (.request tc)
    match argsOf c.numerals tc.arguments with
    | none => (.stop .raised, s)
    | some args =>
      let sig := signatureOf c.numerals tc.name args
      let a := a.count sig
      if callLimit c.lower tc.name < a.toolCallCounts sig then
        (.again (a.withdrawTools tc.name), s.emit (loopGuardStatus tc.name))
      else
        let result := w.results s.executions
        let s := runTool c s tc.name args result
        match controlOf c.numerals result.text with
        | .raise => (.stop .raised, s)
        | .event e => (.stop .asked, (s.emit e).emit (doneEvent a usage))
        | .none =>
          let s := s.emit (.toolResult tc.name (result.text.take 500))
          runCalls c w usage rest (a.receive c tc result.text) s

/-! ## The rounds of a model -/

/-- What the loops over the rounds and the models read. -/
structure Plan where
  tools : Option (List Text)
  baseMessages : List Message
  useCache : Bool
  maxOut : Int
  factSaliences : Saliences

/-- How a round ends: with another one, with the next model, or with the turn. -/
inductive RoundEnd
  | again (a : Attempt)
  | nextModel
  | stop (e : Ending)

def Plan.trim (p : Plan) (c : Config) (model : Text) (messages : List Message) : List Message :=
  (applyContextBudget messages (c.getContextLimit model) p.maxOut p.factSaliences).result

/-- The status of a call that has ended. -/
def modelCallStatus (model : Text) (calls : List ToolCall) (ms : Nat) : StreamEvent :=
  .status "model_call".toList
    (if calls.isEmpty then shortName model ++ " → response".toList
      else shortName model ++ " → requested tool(s): ".toList ++ joinNames (calls.map (·.name)))
    "info".toList (some ms)

/-- The text before a tool call is no answer. -/
def discardPreamble (r : Reading) (s : Turn) : Turn :=
  if r.accumulated.isEmpty then s else s.emit .preambleDiscard

/-- The end of a round with a response. -/
def finish (p : Plan) (a : Attempt) (r : Reading) (s : Turn) : Ending × Turn :=
  let response := r.accumulated.flatten
  let s := if p.useCache then s.act (.cache response a.model) else s
  (.answered response a.model, s.emit (doneEvent a r.usage))

/-- The part of a round after the chunk loop. -/
def afterChunks (c : Config) (w : World) (p : Plan) (g : Generation) (a : Attempt) (r : Reading)
    (s : Turn) : RoundEnd × Turn :=
  match r.budgetReason with
  | some reason => (.stop .failed, s.stopFor reason)
  | none =>
    if g.raises then
      if r.started then (.stop .failed, s.emit (.error "Stream interrupted".toList))
      else (.nextModel, s)
    else
      let s := s.emit (modelCallStatus a.model r.toolCalls g.ms)
      if !r.toolCalls.isEmpty then
        let s := discardPreamble r s
        match runCalls c w r.usage r.toolCalls a s with
        | (.again a, s) =>
          (.again { a with toolMessages := p.trim c a.model a.toolMessages }, s)
        | (.stop e, s) => (.stop e, s)
      else if r.accumulated.isEmpty then (.nextModel, s)
      else
        match finish p a r s with
        | (e, s) => (.stop e, s)

/-- The schemas that are passed: none once the loop guard has tripped. -/
def Attempt.tools (a : Attempt) (p : Plan) : Option (List Text) :=
  if a.forceNoTools then none else p.tools

/-- The call of `call_stream`. -/
def Turn.callModel (s : Turn) (a : Attempt) (tools : Option (List Text)) : Turn :=
  { s with calls := s.calls + 1 }.act (.call a.model a.toolMessages tools)

/-- The body of the loop over `_tool_iter`. -/
def round (c : Config) (w : World) (p : Plan) (a : Attempt) (s : Turn) : RoundEnd × Turn :=
  let g := w.generations s.calls
  match checkTurnBudget c g.elapsed s.chars with
  | some reason => (.stop .failed, s.stopFor reason)
  | none =>
    let s := s.callModel a (a.tools p)
    match readChunks c g.chunks {} s with
    | (r, s) => afterChunks c w p g a r s

/-- How a model of the chain ends: with the next one, or with the turn. -/
inductive ModelEnd
  | nextModel
  | stop (e : Ending)

/-- `MAX_TOOL_ITERATIONS`. -/
def maxToolIterations : Nat := 60

/-- `for _tool_iter in range(…)`, with its `else`. -/
def rounds (c : Config) (w : World) (p : Plan) : Nat → Attempt → Turn → ModelEnd × Turn
  | 0, _, s => (.stop .failed, s.emit (.error "Tool loop limit reached".toList))
  | n + 1, a, s =>
    match round c w p a s with
    | (.again a, s) => rounds c w p n a s
    | (.nextModel, s) => (.nextModel, s)
    | (.stop e, s) => (.stop e, s)

/-! ## The models of the chain -/

/-- The locals of a model when its rounds begin. -/
def Attempt.start (c : Config) (p : Plan) (idx : Nat) (model : Text) : Attempt where
  model := model
  fallbackUsed := 0 < idx
  toolMessages := p.trim c model p.baseMessages

/-- The statuses before the rounds of a model. -/
def startModel (c : Config) (p : Plan) (idx : Nat) (model : Text) (s : Turn) : Turn :=
  let s := s.act (.attempt model)
  if 0 < idx then s.emit (.alert "fallback" ("Falling back → ".toList ++ model))
  else s.emit (.info "budget" ("Context fitted to ".toList ++ commas (c.getContextLimit model)
    ++ "-tok window (≤".toList ++ commas p.maxOut ++ " out)".toList))

/-- `for idx, current_model in enumerate(fallback_chain)`. -/
def models (c : Config) (w : World) (p : Plan) : Nat → List Text → Turn → Ending × Turn
  | _, [], s => (.failed, s.emit (.error "All models failed".toList))
  | idx, model :: rest, s =>
    match rounds c w p maxToolIterations (.start c p idx model) (startModel c p idx model s) with
    | (.nextModel, s) => models c w p (idx + 1) rest s
    | (.stop e, s) => (e, s)

/-! ## The turn -/

/-- The events of a cache hit. -/
def serveCached (cached : Cache.Cached) (s : Turn) : Turn :=
  ((s.emit (.info "cache" "Cache hit — returning stored answer".toList)).emit
    (.token cached.response)).emit (.done ⟨cached.model, true, false, false, false, none, []⟩)

/-- What the loops read, from the request and the user's message. -/
def planOf (c : Config) (r : Request) (w : World) (user : Message) : Plan where
  tools := offeredTools c r w
  baseMessages := baseMessages { r.context with history := cleanHistory r.context.history }
    (rulesBlock c r w) [user]
  useCache := r.useCache
  maxOut := r.maxTokens.getD 4096
  factSaliences := r.factSaliences

/-- `f"Routing → {fallback_chain[0]} ({route_reason})"`. -/
def routeStatus (c : Config) (r : Request) (w : World) : StreamEvent :=
  .info "route" ("Routing → ".toList ++ ((routeChain c r w).1.headD []) ++ " (".toList
    ++ (routeChain c r w).2.toList ++ ")".toList)

/-- `generate_stream`. -/
def generateStream (c : Config) (r : Request) (w : World) : Ending × Turn :=
  match (if r.useCache then w.cached else none) with
  | some cached => (.answered cached.response cached.model, serveCached cached {})
  | none =>
    let s := Turn.emit {} (routeStatus c r w)
    match userMessage c r w with
    | none => (.raised, s)
    | some (user, status) =>
      models c w (planOf c r w user) 0 (fallbackChain c r w) (status.foldl Turn.emit s)

/-! ## A small setting -/

/-- Numerals of one digit. -/
def digitNumerals : Numerals where
  print q := [hexDigit (q.num.natAbs % 10)]
  value _ := 0
  isNumber_print q := by
    have hall : ∀ d, d < 10 → isNumber [hexDigit d] = true := by decide
    exact hall _ (Nat.mod_lt _ (by decide))
  isTooLong_print q := by
    have hlen := List.length_filter_le isDigit [hexDigit (q.num.natAbs % 10)]
    rw [List.length_singleton] at hlen
    rw [isTooLong, Bool.and_eq_false_iff, decide_eq_false_iff_not]
    exact Or.inr (by omega)

/-- The limits that `config` has by default, and a search provider. -/
def smallConfig : Config where
  numerals := digitNumerals
  lower := id
  llama := "llama".toList
  coder := "coder".toList
  reasoning := "reasoning".toList
  modelVision := "vision".toList
  imageOcrEnabled := false
  webSearchEnabled := true
  streamTurnBudget := 300
  streamMaxTurnTokens := 16000
  streamTotalTimeout := 120
  getContextLimit := fun _ => 131072

/-- A question in a new conversation with these files. -/
def question (message : String) (files : List String) : Request where
  message := message.toList
  context :=
    { memorySheet := [], projectSummary := [], retrievedChunks := [], historySummary := [],
      history := [], fileNames := files.map String.toList, fileIds := files.map String.toList }

/-- A turn that is routed to the coder and meets these generations and results. -/
def meets (generations : List Generation) (results : List String) : World where
  routed := "coder".toList
  generations := fun i => generations.getD i { chunks := [] }
  results := fun i => ⟨(results.getD i "").toList, 0⟩

/-- A generation that calls one tool. -/
def callsTool (name arguments : String) : Generation :=
  { chunks := [(.toolCalls [⟨"c1".toList, name.toList, arguments.toList⟩], 0)] }

def answers (text : String) : Generation := { chunks := [(.text text.toList, 0)] }

end Eidetic.Stream
