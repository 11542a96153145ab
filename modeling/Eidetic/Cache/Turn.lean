import Eidetic.Cache.Keys
import Eidetic.Context.Message
import Mathlib.Data.List.Sort
import Mathlib.Data.Rat.Defs

/-!
# A chat turn and the response cache

The two lookups and the store of a `/chat/stream` request. The route looks the
request up before it builds any context, `generate_stream` looks it up again
and stores the answer under the same kind of key. What the answer was made
from, beyond the message, the model, the tail of the history and the system
prompt, is not in the key.

A turn is the early lookup, the lookup of `generate_stream` after the context is
built, the answer of the backend, and the store. `Backend.answer` is a function
of everything that the models are given, the data of the user among it, so
whatever they do with it is covered; only a complete answer is stored in the
cache (`Outcome`). What is added to the conversation is the question with the
answer, the question asked back, or the note of a failure that has one
(`persisted`).

A turn is one step here. What lies between its lookups and its store in time is
not: other turns come before or after it. The results about whole runs are in
`Cache.Separation`, those about the key in `Cache.Collisions`.
-/

namespace Eidetic.Cache

open Eidetic.Py Eidetic.Context

/-- A row of `messages`. -/
structure StoredMessage where
  role : Role
  content : Text

/-- The body of the request. -/
structure ChatRequest where
  message : Text
  temperature : Option Rat := none
  maxTokens : Option Rat := none
  topP : Option Rat := none
  compare : Bool := false
  image : Option Text := none

/-- The conversation the request is resolved to. -/
structure Conversation where
  id : Nat
  systemPrompt : Option Text := none
  fileCount : Nat := 0

/-- What a turn draws from the user's own data, through the context and the
tools, and the relevance of the stored messages to the request. -/
structure UserData where
  memorySheet : Text := []
  projectSummary : Text := []
  historySummary : Text := []
  retrieved : List Text := []
  fileChunks : List Text := []
  graphContext : Text := []
  graphFacts : Text := []
  activeGoals : Text := []
  recentInsights : List Text := []
  conflictedFacts : List Text := []
  lastSession : Text := []
  toolResults : List Text := []
  relevance : List Rat := []

/-- A request with what it meets: the model `resolve_effective_model` gives,
the time since the turn before, and the time its answer takes. -/
structure Turn where
  user : Nat
  request : ChatRequest
  conversation : Conversation
  effectiveModel : Option Text := none
  data : UserData := {}
  elapsed : Nat := 0
  took : Nat := 0

/-- How the models leave a turn: with a complete answer, with a question or a
confirmation for the user, or without either and perhaps a note. -/
inductive Outcome
  | answered (response model : Text)
  | asked (text : Text)
  | failed (note : Option Text)

/-- The code around the cache: the models and the tools, as a function of all
they are given, and `compress_tool_dumps`. -/
structure Backend where
  hashing : Hashing
  mode : Mode
  answer : Turn → List StoredMessage → Outcome
  compressToolDumps : Text → Text

structure State where
  now : Nat
  store : Store
  /-- By user and conversation, oldest first. -/
  messages : Nat → Nat → List StoredMessage

/-- The last `n` entries. -/
def lastN {α : Type} (n : Nat) (xs : List α) : List α := xs.drop (xs.length - n)

def modelParams (r : ChatRequest) : List (String × Rat) :=
  (r.temperature.map fun v => ("temperature", v)).toList ++
    (r.maxTokens.map fun v => ("max_tokens", v)).toList ++
    (r.topP.map fun v => ("top_p", v)).toList

/-- `not req.image_b64 and not model_params`. -/
def plain (r : ChatRequest) : Bool := (r.image.getD []).isEmpty && (modelParams r).isEmpty

/-- The ten best of the last thirty messages, by recency and relevance, in order. -/
def pickHistory (relevance : List Rat) (messages : List StoredMessage) : List StoredMessage :=
  let candidates := lastN 30 messages
  let scored := candidates.mapIdx fun i m =>
    (6 / 10 * (i / max (candidates.length - 1) 1 : Rat) + 4 / 10 * relevance.getD i 0, i, m)
  -- both sorts are stable, as Python's are
  let top := (scored.insertionSort fun a b => b.1 ≤ a.1).take 10
  (top.insertionSort fun a b => a.2.1 ≤ b.2.1).map fun e => e.2.2

def historyOf (s : State) (t : Turn) : List StoredMessage :=
  pickHistory t.data.relevance (s.messages t.user t.conversation.id)

/-- The key of the early lookup. -/
def earlyKey (b : Backend) (s : State) (t : Turn) : Text :=
  makeKey b.hashing t.request.message (t.effectiveModel.getD [])
    (joinLines ((lastN 4 (s.messages t.user t.conversation.id)).map (·.content)))
    (t.conversation.systemPrompt.getD [])

/-- The key of the lookup and of the store in `generate_stream`. -/
def streamKey (b : Backend) (s : State) (t : Turn) : Text :=
  makeKey b.hashing t.request.message (t.effectiveModel.getD [])
    (joinLines ((lastN 4 (historyOf s t)).map (·.content)))
    (t.conversation.systemPrompt.getD [])

/-- The early lookup is made. -/
def usesEarly (t : Turn) : Bool := plain t.request && t.conversation.fileCount = 0

/-- `use_cache`. -/
def useCache (t : Turn) : Bool := t.data.fileChunks.isEmpty && plain t.request

/-- The early lookup of `chat_stream`. -/
def earlyLookup (b : Backend) (s : State) (t : Turn) : Option Cached × Store :=
  if usesEarly t then s.store.get s.now (earlyKey b s t) else (none, s.store)

/-- `generate_stream`: what the cache serves, the outcome, and the store it leaves. -/
def generateStream (b : Backend) (s : State) (t : Turn) : Option Cached × Outcome × Store :=
  if useCache t then
    match s.store.get s.now (streamKey b s t) with
    | (some cached, store) => (some cached, .answered cached.response cached.model, store)
    | (none, store) =>
      match b.answer t (historyOf s t) with
      -- only a complete answer is stored, whatever it was made from
      | .answered response model =>
        (none, .answered response model,
          store.set b.mode (s.now + t.took) (streamKey b s t) ⟨response, model⟩ 3600)
      | outcome => (none, outcome, store)
  else (none, b.answer t (historyOf s t), s.store)

/-- The assistant message the route stores, if the turn is committed at all. -/
def persisted (b : Backend) : Outcome → Option Text
  | .answered response _ => some (b.compressToolDumps response)
  | .asked text => some text
  | .failed note => note

/-- The user's message and the assistant's, at the end of the conversation. -/
def record (s : State) (t : Turn) (reply : Option Text) : Nat → Nat → List StoredMessage :=
  fun user conversation =>
    if user = t.user ∧ conversation = t.conversation.id then
      match reply with
      | some text =>
        s.messages user conversation ++ [⟨.user, t.request.message⟩, ⟨.assistant, text⟩]
      | none => s.messages user conversation
    else s.messages user conversation

/-- The request from its early lookup on. -/
def requestAt (b : Backend) (s : State) (t : Turn) : State × Option Cached :=
  match earlyLookup b s t with
  | (some cached, store) =>
    -- a hit is stored as it is, without `compress_tool_dumps`
    (⟨s.now + t.took, store, record s t (some cached.response)⟩, some cached)
  | (none, store) =>
    -- a comparison stores neither messages nor answers
    if t.request.compare then (⟨s.now + t.took, store, s.messages⟩, none)
    else
      match generateStream b { s with store } t with
      | (served, outcome, store) =>
        (⟨s.now + t.took, store, record s t (persisted b outcome)⟩, served)

/-- The state when the request comes. -/
def State.at (s : State) (t : Turn) : State := { s with now := s.now + t.elapsed }

/-- A `/chat/stream` request: the state it leaves, and what the cache served. -/
def chatStream (b : Backend) (s : State) (t : Turn) : State × Option Cached :=
  requestAt b (s.at t) t

end Eidetic.Cache
