import Eidetic.Py.Json

/-!
# The body of a streamed response

The SSE line loop of `call_stream`. A `data:` line is parsed, its usage and its
text are yielded, its tool-call fragments are merged into `pending`, and the
merged calls are yielded when the model says it has finished with them. One
handler around all this catches the exceptions of malformed data.

A payload either has a value or is a `JSONDecodeError` here. `json.loads` has two
more ends, which this handler does not catch: the `ValueError` of an integer of
more than 4300 digits, and the `RecursionError` of lists or objects that are nested
too deeply. Both are left out.

A line's events do not depend on what is pending, up to the tool calls, so the
loop body is split there: `chunkHead`, then `mergeCalls`.

`readBody` goes through the lines with what is pending; `dataLine` is one line
of it. What a line may do is read by three modules: `Upstream.CallStream`
follows the text, `Upstream.Reassembly` the tool calls, and `Upstream.Tolerance`
the exceptions.
-/

namespace Eidetic.Upstream

open Eidetic.Py

/-- An entry of `pending`. -/
structure PendingCall where
  id : Json
  name : Text
  arguments : Text

/-- `pending`, in insertion order. -/
abbrev Pending := List (DictKey × PendingCall)

/-- What `call_stream` yields: a content, a `__usage__`, the `__tool_calls__`
or the `__budget_exceeded__` sentinel. A content that is no string is passed
on as it is. -/
inductive Event
  | content (v : Json)
  | usage (items : List (Text × Json))
  | toolCalls (calls : List PendingCall)
  | budgetExceeded

/-- The text chunks among the events. -/
def textOf (events : List Event) : Text :=
  events.flatMap fun event =>
    match event with
    | .content (.str s) => s
    | _ => []

/-! ## Tool-call fragments -/

/-- `if idx not in pending: pending[idx] = {…}`. -/
def Pending.ensure (p : Pending) (k : DictKey) : Pending :=
  if p.any fun e => e.1 = k then p else p ++ [(k, ⟨.str [], [], []⟩)]

def Pending.modify (p : Pending) (k : DictKey) (f : PendingCall → PendingCall) : Pending :=
  p.map fun e => if e.1 = k then (e.1, f e.2) else e

/-- What `if fn.get(key): … += fn[key]` appends to a string. -/
def fragment (value : Option Json) : Except Exc Text :=
  match value with
  | some (.str s) => .ok s
  | some v => if v.truthy then .error .malformed else .ok []
  | none => .ok []

/-- Merges the id and the function of a fragment into its entry. What was
merged before an exception stays merged. -/
def mergeFields (p : Pending) (k : DictKey) (tc : List (Text × Json)) : Pending × Option Exc :=
  let id := orElse (getItem tc "id") .null
  let p := if id.truthy then p.modify k fun c => { c with id := id } else p
  match (getItem tc "function").getD (.obj []) with
  | .obj fn =>
    match fragment (getItem fn "name") with
    | .error e => (p, some e)
    | .ok name =>
      let p := p.modify k fun c => { c with name := c.name ++ name }
      match fragment (getItem fn "arguments") with
      | .error e => (p, some e)
      | .ok arguments =>
        (p.modify k fun c => { c with arguments := c.arguments ++ arguments }, none)
  | _ => (p, some .noAttribute)

/-- The body of the loop over a delta's `tool_calls`. -/
def mergeCall (p : Pending) : Json → Pending × Option Exc
  | .obj tc =>
    match ((getItem tc "index").getD (.num 0)).dictKey with
    | none => (p, some .malformed)
    | some k => mergeFields (p.ensure k) k tc
  | _ => (p, some .noAttribute)

def mergeCalls (p : Pending) : List Json → Pending × Option Exc
  | [] => (p, none)
  | tc :: rest =>
    match mergeCall p tc with
    | (p, none) => mergeCalls p rest
    | (p, some e) => (p, some e)

/-- `tool_calls`, in the order of `sorted(pending)`. -/
def assemble (p : Pending) : Option (List PendingCall) :=
  (sortedKeys (p.map (·.1))).map fun keys => keys.filterMap fun k => List.lookup k p

/-- The end of the loop body; nothing is yielded when the keys cannot be sorted. -/
def finishEvents (finishReason : Option Json) (p : Pending) : List Event :=
  if isText finishReason "tool_calls" && !p.isEmpty then
    match assemble p with
    | some calls => [.toolCalls calls]
    | none => []
  else []

/-! ## One line -/

/-- The part of the loop body before the tool calls: it has already ended, or
goes on with the fragments and the finish reason. -/
inductive Head
  | stop (events : List Event) (exc : Option Exc)
  | go (events : List Event) (fragments : List Json) (finishReason : Option Json)

/-- `{"__usage__": usage}`, if the usage is a non-empty dict. -/
def usageEvent (chunk : List (Text × Json)) : List Event :=
  match getItem chunk "usage" with
  | some (.obj (item :: items)) => [.usage (item :: items)]
  | _ => []

/-- `content = delta.get("content") or ""`, yielded if there is one. -/
def contentEvent (delta : List (Text × Json)) : List Event :=
  let content := orElse (getItem delta "content") (.str [])
  if content.truthy then [.content content] else []

/-- The loop body from `choice.get("delta")` up to the loop over the tool calls. -/
def choiceHead (usage : List Event) (choice : List (Text × Json)) : Head :=
  match orElse (getItem choice "delta") (.obj []) with
  | .obj delta =>
    let events := usage ++ contentEvent delta
    match (orElse (getItem delta "tool_calls") (.arr [])).iter with
    | .error e => .stop events (some e)
    | .ok fragments => .go events fragments (getItem choice "finish_reason")
  | _ => .stop usage (some .noAttribute)

/-- The loop body on a chunk's `choices`: a usage-only chunk has ended, else
`chunk["choices"][0]` is looked at, a missing key and a null being malformed. -/
def choicesHead (usage : List Event) (choices : Option Json) : Head :=
  if !usage.isEmpty && !(orElse choices .null).truthy then .stop usage none
  else
    match (choices.getD .null).first with
    | .error e => .stop [] (some e)
    | .ok (.obj choice) => choiceHead usage choice
    | .ok _ => .stop [] (some .noAttribute)

/-- The loop body up to the tool calls; the payload is `none` when it is not JSON. -/
def chunkHead : Option Json → Head
  | some (.obj chunk) => choicesHead (usageEvent chunk) (getItem chunk "choices")
  | some _ => .stop [] (some .noAttribute)
  | none => .stop [] (some .malformed)

/-- What one `data:` line yields and leaves pending, and whether an exception
leaves the handler. -/
structure LineResult where
  events : List Event
  pending : Pending
  raises : Bool

def dataLine (payload : Option Json) (p : Pending) : LineResult :=
  match chunkHead payload with
  | .stop events exc => ⟨events, p, exc == some .noAttribute⟩
  | .go events fragments finishReason =>
    match mergeCalls p fragments with
    | (p', some e) => ⟨events, p', e == .noAttribute⟩
    | (p', none) => ⟨events ++ finishEvents finishReason p', p', false⟩

/-! ## The line loop -/

/-- A line: one without the `data: ` prefix, `[DONE]`, or a payload. -/
inductive LineKind
  | other
  | done
  | data (payload : Option Json)

/-- The classification of a line's text; `loads` is `json.loads`. -/
def classify (loads : Text → Option Json) (line : Text) : LineKind :=
  if !startsWith line "data: ".toList then .other
  else
    let raw := strip (line.drop 6)
    if raw = "[DONE]".toList then .done else .data (loads raw)

/-- A line as the loop meets it; `late` when the connection has then lasted
longer than a `STREAM_TOTAL_TIMEOUT` that is set. -/
structure Line where
  late : Bool := false
  kind : LineKind

/-- How the loop over the lines ends: at `[DONE]`, with the lines, at the
connection's time limit, or by an exception. -/
inductive BodyEnd
  | done
  | exhausted
  | late
  | raised
deriving DecidableEq, Repr

/-- The loop over the lines: the events line by line, and how it ended. -/
def readBody : List Line → Pending → List (List Event) × BodyEnd
  | [], _ => ([], .exhausted)
  | line :: rest, p =>
    if line.late then ([[.budgetExceeded]], .late)
    else
      match line.kind with
      | .other => ([] :: (readBody rest p).1, (readBody rest p).2)
      | .done => ([], .done)
      | .data payload =>
        let r := dataLine payload p
        if r.raises then ([r.events], .raised)
        else (r.events :: (readBody rest r.pending).1, (readBody rest r.pending).2)

end Eidetic.Upstream
