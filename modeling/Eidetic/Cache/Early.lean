import Eidetic.Cache.Turn

/-!
# The early lookup and the full path

The route looks a request up before it builds any context, from the request
and the last four messages of the conversation; `generate_stream` looks it up
from what the context has become: the picked history and the files of the
conversation, of the request or of the user. What the early lookup does not
look at is whether the request is a comparison, the files it names, the files
that the context falls back on, and the order the picked history is in. It
agrees with the full path exactly when none of these makes a difference
(`earlyAgrees_iff`).

The two lookups follow the two paths of the source: the route makes its key of
the last four messages (`keyWith`), `generate_stream` makes `fullKey` of what
the context has become, if it looks anything up. Both end in the same
`make_key`, so they agree if what they give it is the same. `EarlyAgrees` is the
claim on one request; it speaks of every answer that may be cached, since a
lookup that finds nothing agrees with anything.

`NothingUnseen` has one field for each thing that only the full path looks at.
Each of them is necessary by itself, because the early lookup makes the same key
whatever they are: after a comparison, a file that is named or fallen back on,
or a picked history with another tail, the full path looks up nothing or another
key.
-/

namespace Eidetic.Cache

open Eidetic.Py Eidetic.Context

/-- A row of `messages` with its `created_at`, which rows of one transaction share. -/
structure StampedMessage extends StoredMessage where
  createdAt : Nat

/-- A row of `files`. -/
structure FileRow where
  id : Nat
  owner : Nat
  ready : Bool

/-- The body of the request, with what only the full path reads. -/
structure StreamRequest extends ChatRequest where
  /-- `conversation_id` is given. -/
  named : Bool := true
  fileIds : List Text := []

/-- A request with what it meets. A conversation that has just been made has no
messages and no files. -/
structure Arrival where
  user : Nat
  request : StreamRequest
  systemPrompt : Option Text := none
  effectiveModel : Option Text := none
  /-- Of the conversation, in the order of the queries turned round. -/
  messages : List StampedMessage := []
  relevance : List Rat := []
  /-- The rows of `conversation_files`. -/
  attached : List Nat := []
  files : List FileRow := []
  /-- `get_conversation_files` catches an exception. -/
  filesFail : Bool := false
  /-- There is an embedding of the message. -/
  embedded : Bool := false
  fresh : request.named = false → messages = [] ∧ attached = []

/-- The code around: the hashing of the keys, `uuid.UUID`, and the retrieval
from files, by embedding or in sequence. -/
structure Services where
  hashing : Hashing
  uuid : Text → Option Nat
  retrieve : Bool → List Nat → List Text

/-- `_FILE_OP_KEYWORDS`. -/
def fileOpKeywords : List Text :=
  ["read", "write", "edit", "update", "create", "append", "patch",
    "search", "find", "fix", "change", "modify", "file", "document",
    "documents", "content", "add", "remove", "delete", "replace",
    "rewrite", "summarize", "analyse", "analyze", "open", "insert",
    "correct", "improve", "refactor", "rename", "review", "check"].map String.toList

/-- `_needs_file_tools`. -/
def needsFileTools (s : Services) (message : Text) : Bool :=
  (words (s.hashing.lower message)).any fileOpKeywords.contains

/-! ## What the context is built from -/

/-- The ten best of the candidates, by recency and relevance, in the order of
their times: those of one time stay in the order of their scores. -/
def pickStamped (relevance : List Rat) (candidates : List StampedMessage) : List StampedMessage :=
  let scored := candidates.mapIdx fun i m =>
    (6 / 10 * (i / max (candidates.length - 1) 1 : Rat) + 4 / 10 * relevance.getD i 0, m)
  let top := ((scored.insertionSort fun a b => b.1 ≤ a.1).take 10).map (·.2)
  top.insertionSort fun a b => a.createdAt ≤ b.createdAt

/-- `ctx["history"]`. -/
def history (a : Arrival) : List StampedMessage :=
  if a.request.named then pickStamped a.relevance (lastN 30 a.messages) else []

/-- `req_fids`: what is no identifier is passed over. -/
def requestFids (s : Services) (a : Arrival) : List Nat := a.request.fileIds.filterMap s.uuid

/-- `get_conversation_files`. -/
def conversationFiles (a : Arrival) : List Nat :=
  if a.filesFail then [] else a.attached.filter fun id => a.files.any fun f => f.id = id

def owned (a : Arrival) (id : Nat) : Bool := a.files.any fun f => f.id = id && f.owner = a.user

/-- `ctx["file_ids"]`. -/
def fileIds (s : Services) (a : Arrival) : List Nat :=
  if a.request.named then
    let extra := (requestFids s a).filter fun id => !(conversationFiles a).contains id
    conversationFiles a ++ extra.filter (owned a)
  else (requestFids s a).filter (owned a)

/-- The files a message about files falls back on: all that the user has. -/
def fallbackIds (s : Services) (a : Arrival) : List Nat :=
  if a.embedded && needsFileTools s a.request.message then
    (a.files.filter fun f => f.owner = a.user && f.ready).map (·.id)
  else []

/-- What is retrieved from files, if there are any. -/
def retrieveChunks (s : Services) (a : Arrival) (ids : List Nat) : List Text :=
  if ids.isEmpty then [] else s.retrieve a.embedded ids

/-- `ctx["file_chunks"]`: with no files attached, from the fallback. -/
def fileChunks (s : Services) (a : Arrival) : List Text :=
  retrieveChunks s a (if (fileIds s a).isEmpty then fallbackIds s a else fileIds s a)

/-! ## The two lookups -/

/-- The last four messages of a history, as one text. -/
def tailOf (messages : List StampedMessage) : Text :=
  joinLines ((lastN 4 messages).map (·.content))

def keyWith (s : Services) (a : Arrival) (historyTail : Text) : Text :=
  makeKey s.hashing a.request.message (a.effectiveModel.getD []) historyTail
    (a.systemPrompt.getD [])

/-- The request is looked up early. -/
def looksEarly (a : Arrival) : Bool := plain a.request.toChatRequest && a.attached.isEmpty

/-- What the early lookup serves. -/
def earlyAnswer (s : Services) (store : Store) (now : Nat) (a : Arrival) : Option Cached :=
  if looksEarly a then store.find now (keyWith s a (tailOf a.messages)) else none

/-- The key the full path looks up: a comparison looks up none. -/
def fullKey (s : Services) (a : Arrival) : Option Text :=
  if a.request.compare then none
  else if (fileChunks s a).isEmpty && plain a.request.toChatRequest then
    some (keyWith s a (tailOf (history a)))
  else none

/-- What the full path is served. -/
def fullAnswer (s : Services) (store : Store) (now : Nat) (a : Arrival) : Option Cached :=
  (fullKey s a).bind (store.find now)

/-- What is served early the full path would have looked up under the same key
and served, and it is no comparison, names no files and has the same history. -/
def EarlyAgrees (s : Services) (store : Store) (now : Nat) (a : Arrival) : Prop :=
  ∀ cached, earlyAnswer s store now a = some cached →
    fullKey s a = some (keyWith s a (tailOf a.messages)) ∧ fullAnswer s store now a = some cached ∧
      a.request.fileIds = [] ∧ a.request.compare = false ∧
      tailOf (history a) = tailOf a.messages

/-- Nothing that the early lookup passes over makes a difference. -/
structure NothingUnseen (s : Services) (a : Arrival) : Prop where
  compare : a.request.compare = false
  fileIds : a.request.fileIds = []
  fallback : retrieveChunks s a (fallbackIds s a) = []
  tail : tailOf (history a) = tailOf a.messages

/-! ## The picked history -/

/-! ## Where the lookups agree -/

/-- With nothing attached and no files named there is only the fallback. -/
theorem fileChunks_eq (s : Services) {a : Arrival} (hattached : a.attached = [])
    (hids : a.request.fileIds = []) :
    fileChunks s a = retrieveChunks s a (fallbackIds s a) := by
  have hfids : requestFids s a = [] := by
    rw [requestFids, hids, List.filterMap_nil]
  have hfiles : conversationFiles a = [] := by
    unfold conversationFiles
    rw [hattached, List.filter_nil, ite_self]
  have hnone : fileIds s a = [] := by
    unfold fileIds
    rw [hfids, hfiles]
    exact ite_self _
  unfold fileChunks
  rw [hnone]
  rfl

theorem fullKey_eq {s : Services} {a : Arrival} (hlooks : looksEarly a = true)
    (h : NothingUnseen s a) : fullKey s a = some (keyWith s a (tailOf a.messages)) := by
  obtain ⟨hplain, hattached⟩ := Bool.and_eq_true_iff.mp hlooks
  unfold fullKey
  rw [if_neg (by rw [h.compare]; simp),
    fileChunks_eq s (List.isEmpty_iff.mp hattached) h.fileIds, h.fallback, hplain, h.tail]
  rfl

/-- The two paths agree on a request, whatever is cached, exactly when it is
not looked up early or there is nothing that the early lookup does not see. -/
theorem earlyAgrees_iff (s : Services) (a : Arrival) :
    (∀ store now, EarlyAgrees s store now a) ↔ (looksEarly a = true → NothingUnseen s a) := by
  constructor
  · intro hagrees hlooks
    -- any answer under the early key shows what the full path would have done
    have hserved : earlyAnswer s [⟨keyWith s a (tailOf a.messages), ⟨[], []⟩, 0⟩] 0 a
        = some ⟨[], []⟩ := by
      unfold earlyAnswer
      rw [if_pos hlooks]
      simp [Store.find, Store.entry]
    obtain ⟨hkey, _, hids, hcompare, htail⟩ := hagrees _ _ _ hserved
    refine ⟨hcompare, hids, ?_, htail⟩
    have hattached := List.isEmpty_iff.mp (Bool.and_eq_true_iff.mp hlooks).2
    rw [← fileChunks_eq s hattached hids]
    unfold fullKey at hkey
    rw [if_neg (by rw [hcompare]; simp)] at hkey
    split at hkey
    next huse => exact List.isEmpty_iff.mp (Bool.and_eq_true_iff.mp huse).1
    next => exact absurd hkey (by simp)
  · intro hunseen store now cached hserved
    unfold earlyAnswer at hserved
    split at hserved
    next hlooks =>
      have h := hunseen hlooks
      have hkey := fullKey_eq hlooks h
      refine ⟨hkey, ?_, h.fileIds, h.compare, h.tail⟩
      unfold fullAnswer
      rw [hkey]
      exact hserved
    next => exact absurd hserved (by simp)

/-- A comparison of the models on a question that has been answered before. -/
def comparison : Arrival where
  user := 1
  request := { message := "hi".toList, named := false, compare := true }
  fresh := fun _ => ⟨rfl, rfl⟩

def plainServices : Services where
  hashing := ⟨id, id⟩
  uuid := fun _ => none
  retrieve := fun _ _ => []

/-- It gets the cached answer of one model, where the full path looks up nothing. -/
theorem comparison_servedEarly : ¬ ∀ s store now a, EarlyAgrees s store now a := by
  intro h
  have hserved : earlyAnswer plainServices
      [⟨keyWith plainServices comparison [], ⟨"Hello!".toList, "llama".toList⟩, 3600⟩] 0 comparison
        = some ⟨"Hello!".toList, "llama".toList⟩ := by decide
  exact absurd (h _ _ _ _ _ hserved).2.2.2.1 (by decide)

end Eidetic.Cache
