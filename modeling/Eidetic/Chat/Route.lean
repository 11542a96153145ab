import Eidetic.Lib.Session
import Eidetic.Stream.Compare
import Eidetic.Stream.Turn

/-!
# The route of the chat stream

`event_generator`: what the route does with the events of a turn. It forwards
them as frames of a `text/event-stream`, collects the tokens, and saves the
assistant's message next to the user's in one database session, which it shares
with the tools: what an execution does to the session is part of what the route
meets, as are the failures of the database.

`Route` has the locals of the generator together with what it has yielded and
the session, and each function of the source takes one `Route` to the next with
a flag for an exception, as the handlers around it need it. `onEvent` is the
body of the loop; `onExecute` is no code of the route, but what the execution of
a tool does to the shared session between two events.

`RouteWorld` is what the route meets and does not decide: whether the database
takes each row and each note, whether a rollback raises, what the context
reports before the first event, what the background functions answer.
`persistAbort` tries the note of an aborted turn and rolls back if that fails;
it is called for an error event, and once more by the handler of whatever
exception leaves the loop, that of its own rollback included. The results about
the text are in `Chat.Agreement`, those about the session in `Chat.Closing`.
-/

namespace Eidetic.Chat

open Eidetic.Lib Eidetic.Py Eidetic.Stream

/-! ## Events as dicts -/

abbrev Dict := List (Text × Json)

def dict (items : List (String × Json)) : Dict := items.map fun item => (item.1.toList, item.2)

/-- `{**items, **more}`. -/
def update (items more : Dict) : Dict :=
  more.foldl (fun d item => setItem d item.1 item.2) items

def doneDict (d : DoneEvent) : Dict :=
  dict [("type", .str "done".toList), ("model", .str d.model), ("cache_hit", .bool d.cacheHit),
      ("fallback_used", .bool d.fallbackUsed), ("web_searched", .bool d.webSearched),
      ("url_fetched", .bool d.urlFetched)]
    ++ (match d.driveRead with
      | some (read, name) => dict [("drive_read", .bool read), ("drive_file_name", .str name)]
      | none => [])
    ++ if d.usage.isEmpty then [] else dict [("usage", .obj d.usage)]

/-- The dict that `generate_stream` yields. -/
def toDict : StreamEvent → Dict
  | .status stage detail level ms =>
    dict [("type", .str "status".toList), ("stage", .str stage), ("detail", .str detail),
        ("level", .str level)]
      ++ match ms with
        | some ms => dict [("ms", .num ms)]
        | none => []
  | .token content => dict [("type", .str "token".toList), ("content", .str content)]
  | .preambleDiscard => dict [("type", .str "preamble_discard".toList)]
  | .toolCall name args =>
    dict [("type", .str "tool_call".toList), ("name", .str name), ("args", .obj args)]
  | .toolResult name content =>
    dict [("type", .str "tool_result".toList), ("name", .str name), ("content", .str content)]
  | .askUser question => dict [("type", .str "ask_user".toList), ("question", .str question)]
  | .confirmWriteMemory fact =>
    dict [("type", .str "confirm_write_memory".toList), ("fact", .str fact)]
  | .confirmCalendarWrite payload =>
    update (dict [("type", .str "confirm_calendar_write".toList)]) payload
  | .done d => doneDict d
  | .error message => dict [("type", .str "error".toList), ("message", .str message)]

/-- `f"data: {json.dumps(event)}\n\n"`. -/
def sse (n : Numerals) (event : Dict) : Text :=
  "data: ".toList ++ dumps n (.obj event) ++ ['\n', '\n']

theorem sse_eq (n : Numerals) (event : Dict) :
    sse n event = "data: ".toList ++ dumps n (.obj event) ++ ['\n', '\n'] := rfl

/-! ## What the route meets -/

/-- A stage of the building of the context. -/
inductive Traced
  | act (stage detail level : Text) (ms : Option Nat)
  /-- `lock_unavailable_status_event`. -/
  | lockUnavailable (lockedModel : Text)

def Traced.toDict : Traced → Dict
  | .act stage detail level ms =>
    dict [("stage", .str stage), ("detail", .str detail), ("level", .str level)]
      ++ match ms with
        | some ms => dict [("ms", .num ms)]
        | none => []
  | .lockUnavailable lockedModel =>
    dict [("stage", .str "model".toList), ("level", .str "error".toList),
      ("detail", .str ("Locked model ".toList ++ lockedModel
        ++ " is no longer available — using Auto".toList))]

/-- The tokens of a message and what they cost. -/
structure Metering where
  promptTokens : Rat
  completionTokens : Rat
  totalTokens : Json
  costUsd : Rat

/-- A row of a turn in `messages`. -/
inductive Row
  | user
  | assistant (metering : Option Metering)

structure RouteWorld where
  /-- The new and the old conversation of `rotation_info`. -/
  rotation : Option (Text × Text) := none
  /-- `ctx["activity"]`. -/
  activity : List Traced := []
  /-- The memory sheet, the summaries, the history and the message. -/
  promptTexts : List Text := []
  /-- The cost of prompt and completion tokens of a model. -/
  price : Text → Rat → Rat → Rat
  /-- `round(cost, 8)`. -/
  roundCost : Rat → Rat := id
  /-- What the execution of a tool itself commits and rolls back. -/
  toolEnds : Nat → List TxEnd := fun _ => []
  /-- The row of the tool's log is accepted. -/
  logged : Nat → Bool := fun _ => true
  /-- The rollback after a rejected row of the log raises. -/
  logRollbackRaises : Nat → Bool := fun _ => false
  /-- The assistant's message is committed. -/
  saved : Bool := true
  /-- What follows the commit, counts and jobs, does not raise. -/
  followedUp : Bool := true
  /-- The rollback after a failed save raises. -/
  saveRollbackRaises : Bool := false
  /-- The note of the error event is committed. -/
  noted : Bool := true
  /-- The rollback after that note is rejected raises. -/
  noteRollbackRaises : Bool := false
  /-- The note of the handler of an exception is committed. -/
  handlerNoted : Bool := true
  /-- The proactive suggestion. -/
  suggestion : Option Text := none
  provenance : Json := .arr []
  queryType : Json := .str []
  lastSession : Json := .str []
  grounding : Json := .obj []
  intent : Json := .str []
  sources : Nat := 0
  conversationId : Text := []

/-- The locals of `event_generator`, and what it has yielded. -/
structure Route where
  accumulated : List Json := []
  modelUsed : Text := "unknown".toList
  activity : List Dict := []
  turnRecorded : Bool := false
  executions : Nat := 0
  /-- `full_response`, once there is one. -/
  fullResponse : Option Text := none
  /-- The events that are yielded, each as a frame. -/
  sent : List Dict := []
  /-- The frame of the `done` event is out. -/
  finished : Bool := false
  session : TxSession Row := {}

def Route.send (s : Route) (event : Dict) : Route := { s with sent := s.sent ++ [event] }

/-- The body of the response. -/
def Route.body (n : Numerals) (s : Route) : Text := s.sent.flatMap (sse n)

/-! ## Tokens and cost -/

/-- `"".join(values)`, `none` for the `TypeError` of a value that is no text. -/
def joinTexts : List Json → Option Text
  | [] => some []
  | .str t :: rest => (joinTexts rest).map (t ++ ·)
  | _ :: _ => none

/-- A value in arithmetic. -/
def asNumber : Json → Option Rat
  | .num q => some q
  | .bool b => some (if b then 1 else 0)
  | _ => none

/-- `_estimate_tokens`. -/
def estimateTokens (texts : List Text) : Nat := (texts.map fun t => t.length / 4).sum

/-- `usage.get(key, 0)` as a number. -/
def tokensOf (usage : Dict) (key : String) : Option Rat :=
  match getItem usage key with
  | some v => asNumber v
  | none => some 0

/-- `_calculate_tokens_and_cost`, `none` when it raises; `price` is that of the model. -/
def calculateTokens (price : Rat → Rat → Rat) (event : Dict) (promptTexts : List Text)
    (fullResponse : Text) : Option Metering :=
  match getItem event "usage" with
  | some (.obj (item :: usage)) =>
    match tokensOf (item :: usage) "prompt_tokens", tokensOf (item :: usage) "completion_tokens" with
    | some prompt, some completion =>
      some ⟨prompt, completion,
        (getItem (item :: usage) "total_tokens").getD (.num (prompt + completion)),
        price prompt completion⟩
    | _, _ => none
  | _ =>
    let prompt : Rat := (estimateTokens promptTexts : Nat)
    let completion : Rat := (fullResponse.length / 4 : Nat)
    some ⟨prompt, completion, .num (prompt + completion), price prompt completion⟩

/-! ## The exits -/

/-- `_persist_abort`, on whether the database accepts its note and whether the
rollback of its handler raises; the flag tells of that exception. -/
def Route.persistAbort (accepted rollbackRaises : Bool) (s : Route) : Route × Bool :=
  let undone := ({ s with session := s.session.rollback }, rollbackRaises)
  if s.turnRecorded then (s, false)
  else
    match joinTexts s.accumulated with
    | some _ =>
      if accepted then
        ({ s with session := (s.session.add (.assistant none)).commit, turnRecorded := true },
          false)
      else undone
    | none => undone

/-- The handler of `except Exception` around the events. An exception of its own
ends the response, and the session is closed with nothing left in it. -/
def Route.internalError (x : RouteWorld) (s : Route) : Route :=
  ((s.send (dict [("type", .str "error".toList),
    ("message", .str "Internal server error".toList)])).persistAbort x.handlerNoted false).1

/-- What is set on the event when the message is saved. -/
def meteredDict (x : RouteWorld) (event : Dict) (m : Metering) : Dict :=
  update event (dict [("prompt_tokens", .num m.promptTokens),
    ("completion_tokens", .num m.completionTokens), ("total_tokens", m.totalTokens),
    ("cost_usd", .num (x.roundCost m.costUsd))])

/-- The rest of what is set on the `done` event. -/
def finishedDict (x : RouteWorld) (activity : List Dict) (event : Dict) : Dict :=
  update event (dict [("provenance", x.provenance), ("query_type", x.queryType),
    ("src_count", .num x.sources), ("last_session", x.lastSession), ("grounding", x.grounding),
    ("intent", x.intent), ("activity", .arr (activity.map .obj)),
    ("conversation_id", .str x.conversationId)])

/-- The saving of the assistant's message, and the event with what it cost; the
flag tells of an exception. -/
def Route.save (x : RouteWorld) (s : Route) (event : Dict) (fullResponse : Text) :
    Route × Dict × Bool :=
  let undone := { s with session := s.session.rollback }
  match calculateTokens (x.price s.modelUsed) event x.promptTexts fullResponse with
  | none => (undone, event, x.saveRollbackRaises)
  | some metering =>
    if x.saved then
      let session := (s.session.add (.assistant (some metering))).commit
      if x.followedUp then
        ({ s with session, turnRecorded := true }, meteredDict x event metering, false)
      else
        ({ s with session := session.rollback, turnRecorded := true }, event,
          x.saveRollbackRaises)
    else (undone, event, x.saveRollbackRaises)

/-- `event.get("model", "unknown")`. -/
def modelOf (event : Dict) : Text :=
  match getItem event "model" with
  | some (.str model) => model
  | _ => "unknown".toList

def Route.suggest (x : RouteWorld) (s : Route) : Route :=
  match x.suggestion with
  | some text => s.send (dict [("type", .str "proactive".toList), ("content", .str text)])
  | none => s

/-- A `done` event; the flag tells of an exception. -/
def Route.onDone (x : RouteWorld) (s : Route) (event : Dict) : Route × Bool :=
  let s := { s with modelUsed := modelOf event }
  match joinTexts s.accumulated with
  | none => (s, true)
  | some fullResponse =>
    match { s with fullResponse := some fullResponse }.save x event fullResponse with
    | (s, _, true) => (s, true)
    | (s, event, false) =>
      let s := s.suggest x
      ({ s.send (finishedDict x s.activity event) with finished := true }, false)

/-- The types that are forwarded as they are, next to `status`. -/
def forwardedTypes : List String :=
  ["tool_call", "tool_result", "ask_user", "confirm_write_memory", "confirm_calendar_write"]

/-- An event; the flag tells of an exception. -/
def Route.onEvent (x : RouteWorld) (s : Route) (event : Dict) : Route × Bool :=
  match getItem event "type" with
  | none => (s, true)
  | some type =>
    if isText (some type) "token" then
      match getItem event "content" with
      | some content => ({ s with accumulated := s.accumulated ++ [content] }.send event, false)
      | none => (s, true)
    else if isText (some type) "preamble_discard" then
      ({ s with accumulated := [] }.send event, false)
    else if isText (some type) "status" then
      let traced := event.filter fun item => item.1 != "type".toList
      ({ s with activity := s.activity ++ [traced] }.send event, false)
    else if forwardedTypes.any fun name => isText (some type) name then (s.send event, false)
    else if isText (some type) "done" then s.onDone x event
    else if isText (some type) "error" then
      -- an exception from here meets the handler, which tries a note of its own
      (s.send event).persistAbort x.noted x.noteRollbackRaises
    else (s, false)

/-! ## The whole route -/

/-- The end of `run_tool`: the tool's own commits and rollbacks, and its log. -/
def Route.onExecute (x : RouteWorld) (s : Route) : Route × Bool :=
  let i := s.executions
  let s := { s with executions := i + 1, session := s.session.finishAll (x.toolEnds i) }
  if x.logged i then (s, false)
  else ({ s with session := s.session.rollback }, x.logRollbackRaises i)

def Route.act (x : RouteWorld) (s : Route) : Action → Route × Bool
  | .emit event => s.onEvent x (toDict event)
  | .execute .. => s.onExecute x
  | _ => (s, false)

/-- The actions of a turn, up to an exception. -/
def Route.run (x : RouteWorld) : List Action → Route → Route × Bool
  | [], s => (s, false)
  | a :: rest, s =>
    match s.act x a with
    | (s, true) => (s, true)
    | (s, false) => Route.run x rest s

/-- The event of an archived conversation, with the new one and the old. -/
def rotatedDict (ids : Text × Text) : Dict :=
  dict [("type", .str "rotated".toList), ("rotated", .bool true),
    ("new_conversation_id", .str ids.1), ("old_conversation_id", .str ids.2)]

/-- The user's message is flushed, and the context's statuses are sent. -/
def Route.begin (x : RouteWorld) : Route where
  activity := x.activity.map Traced.toDict
  sent := (x.rotation.map rotatedDict).toList
    ++ x.activity.map fun status =>
      update (dict [("type", .str "status".toList)]) status.toDict
  session := TxSession.add {} .user

/-- `event_generator` on a turn. -/
def eventGenerator (x : RouteWorld) (ending : Ending) (log : List Action) : Route :=
  match Route.run x log (Route.begin x) with
  | (s, true) => s.internalError x
  | (s, false) =>
    match ending with
    | .raised => s.internalError x
    | _ => s

/-! ## Turns that make no events of their own -/

/-- `cached_generator`: the early cache hit of the route. -/
def cachedGenerator (x : RouteWorld) (cached : Cache.Cached) : Route :=
  let s : Route := { session := TxSession.add {} .user }
  let s := s.send (toDict (.token cached.response))
  if x.saved then
    let s := { s with session := (s.session.add (.assistant none)).commit }
    if x.followedUp then
      { s.send (dict [("type", .str "done".toList), ("model", .str cached.model),
          ("cache_hit", .bool true), ("fallback_used", .bool false),
          ("conversation_id", .str x.conversationId), ("provenance", .arr [])]) with
        finished := true }
    else s
  -- the exception closes the session
  else { s with session := s.session.rollback }

/-- The dict that `compare_streams` yields. -/
def compareDict : CompareEvent → Dict
  | .compareStart models =>
    dict [("type", .str "compare_start".toList),
      ("models", .arr (models.map fun m => .obj (dict [("id", .str m.1), ("label", .str m.2)])))]
  | .token content model =>
    dict [("type", .str "token".toList), ("content", content), ("model", .str model)]
  | .done =>
    dict [("type", .str "done".toList), ("compare", .bool true), ("model", .str "compare".toList),
      ("cache_hit", .bool false), ("fallback_used", .bool false)]

def Route.onCompare (x : RouteWorld) (s : Route) : CompareEvent → Route
  | .done =>
    { s.send (setItem (compareDict .done) "conversation_id".toList (.str x.conversationId)) with
      finished := true }
  | event => s.send (compareDict event)

/-- `compare_generator`, which adds no row; what came before is committed. -/
def compareGenerator (x : RouteWorld) (events : List CompareEvent) : Route :=
  events.foldl (Route.onCompare x) { session := TxSession.commit {} }

end Eidetic.Chat
