import Eidetic.Chat.Route
import Eidetic.Py.Lines
import Eidetic.Py.Spacing
import Eidetic.Upstream.CallStream

/-!
# The stream of the compatible endpoint

`_stream` of `/v1/chat/completions` writes what `call_stream` yields in the form
in which `call_stream` reads it from its own endpoint. Whatever the text has in
it, the frames read back to the same chunks, and end, and the text that is put
into the ledger is the one that was read (`reads_back`).

The way back goes through the layers of the reader. A chunk is dumped by
`json.dumps`, which leaves printable ASCII, so no character in it ends a line
(`isLineBoundary_printable`) and the decoder of the client finds the frames as
they were written (`linesOf_sse`). The line of a frame is then its dict as it is
read back (`classify_frame`), and the line loop of `Upstream.CallStream` takes
from it the delta and the finish reason (`dataLine_chunk`).

`read_eq` says what the endpoint has written when `call_stream` is over, by
induction on its events: a chunk for each text, and nothing for the others but
the usage that it keeps. The first chunk, which tells the role, and the last
one, which has no text, are read as nothing (`dataLine_role`, `dataLine_stop`).
An exception ends the body as the normal end does, and then nothing is recorded.
-/

namespace Eidetic.Chat

open Eidetic.Lib Eidetic.Py Eidetic.Stream Eidetic.Upstream

/-- What the chunks of a response have in common. -/
structure Completion where
  cid : Text
  created : Nat
  model : Text

/-- `_chunk`, before it is dumped. -/
def Completion.chunk (h : Completion) (delta : Dict) (finishReason : Json) : Dict :=
  dict [("id", .str h.cid), ("object", .str "chat.completion.chunk".toList), ("created", .num h.created),
    ("model", .str h.model),
    ("choices",
      .arr [.obj (dict [("index", .num 0), ("delta", .obj delta), ("finish_reason", finishReason)])])]

/-- What is known of a stream, and the frames that are sent. -/
structure CompatStream where
  usage : Option Json := none
  parts : List Text := []
  sent : List Dict := []

/-- One event of `call_stream`. -/
def CompatStream.onEvent (h : Completion) (s : CompatStream) : Event → CompatStream
  | .content (.str chunk) =>
    { s with
      parts := s.parts ++ [chunk]
      sent := s.sent ++ [h.chunk (dict [("content", .str chunk)]) .null] }
  | .content (.obj items) =>
    -- a content that is no string is passed on as it is
    match getItem items "__usage__" with
    | some usage => { s with usage := some usage }
    | none => s
  | .usage items => { s with usage := some (.obj items) }
  | .content _ | .toolCalls _ | .budgetExceeded => s

/-- The generator up to the end of `call_stream`, or to an exception of it. -/
def CompatStream.read (h : Completion) (events : List Event) : CompatStream :=
  events.foldl (CompatStream.onEvent h)
    { sent := [h.chunk (dict [("role", .str "assistant".toList)]) .null] }

/-- The frames, the last chunk and `[DONE]`. -/
def CompatStream.body (n : Numerals) (h : Completion) (s : CompatStream) : Text :=
  s.sent.flatMap (sse n) ++ sse n (h.chunk [] (.str "stop".toList)) ++ "data: [DONE]\n\n".toList

/-- The `response_text` and the usage that are recorded, if they are. -/
def CompatStream.recorded (s : CompatStream) : Option (Text × Option Json) :=
  if s.parts.isEmpty ∧ ¬ (orElse s.usage .null).truthy then none else some (s.parts.flatten, s.usage)

/-- The lines of a body as `call_stream` meets them. -/
def linesOf (n : Numerals) (body : Text) : List Line :=
  (splitlines body).map fun line => ⟨false, classify (loads .python n) line⟩

/-! ## What the client reads -/

theorem isLineBoundary_printable {c : Char} (h : isPrintable c = true) : isLineBoundary c = false := by
  rw [isPrintable, Bool.and_eq_true, decide_eq_true_eq, decide_eq_true_eq] at h
  unfold isLineBoundary
  simp only [List.mem_cons, List.not_mem_nil, or_false, decide_eq_false_iff_not]
  omega

theorem strip_dumps_obj (n : Numerals) (d : Dict) : strip (dumps n (.obj d)) = dumps n (.obj d) := by
  refine strip_trimmed ⟨?_, ?_⟩
  · rw [dumps]
    intro c hc
    obtain rfl := Option.some.inj hc
    rfl
  · rw [dumps, ← List.cons_append]
    intro c hc
    rw [List.getLast?_concat] at hc
    obtain rfl := Option.some.inj hc
    rfl

/-- The line of a frame is its dict, as it is read. -/
theorem classify_frame (n : Numerals) (d : Dict) :
    classify (loads .python n) ("data: ".toList ++ dumps n (.obj d)) = .data (some (reread n (.obj d))) := by
  have hdrop : ("data: ".toList ++ dumps n (.obj d)).drop 6 = dumps n (.obj d) := rfl
  have hstarts : startsWith ("data: ".toList ++ dumps n (.obj d)) "data: ".toList = true := rfl
  have hdone : dumps n (.obj d) ≠ "[DONE]".toList := by
    rw [dumps]
    exact fun heq => absurd (List.cons.inj heq).1 (by decide)
  unfold classify
  rw [hstarts, hdrop, strip_dumps_obj]
  simp only [Bool.not_true, Bool.false_eq_true, if_false, if_neg hdone, loads_dumps]

theorem linesOf_sse (n : Numerals) (d : Dict) (rest : Text) :
    linesOf n (sse n d ++ rest) =
      ⟨false, .data (some (reread n (.obj d)))⟩ :: ⟨false, .other⟩ :: linesOf n rest := by
  have hline : ∀ c ∈ "data: ".toList ++ dumps n (.obj d), isLineBoundary c = false := by
    intro c hc
    rcases List.mem_append.mp hc with hlead | hdict
    · have hall : ("data: ".toList.all fun c => !isLineBoundary c) = true := rfl
      simpa using List.all_eq_true.mp hall c hlead
    · exact isLineBoundary_printable (isPrintable_dumps n (.obj d) c hdict)
  have hempty : ∀ c ∈ ([] : Text), isLineBoundary c = false := fun _ hc => absurd hc List.not_mem_nil
  have hsplit : sse n d ++ rest = ("data: ".toList ++ dumps n (.obj d)) ++ '\n' :: ([] ++ '\n' :: rest) := by
    rw [sse_eq, List.append_assoc]
    rfl
  unfold linesOf
  rw [hsplit, splitlines_line hline, splitlines_line hempty, List.map_cons, List.map_cons, classify_frame]
  rfl

theorem linesOf_done (n : Numerals) :
    linesOf n "data: [DONE]\n\n".toList = [⟨false, .done⟩, ⟨false, .other⟩] := rfl

/-- The text chunks of a stream. -/
def isChunk : Event → Bool
  | .content (.str s) => !s.isEmpty
  | _ => false

theorem getItem_dict_nil (key : String) : getItem (dict []) key = none := rfl

theorem getItem_dict_cons (k key : String) (v : Json) (items : List (String × Json)) :
    getItem (dict ((k, v) :: items)) key = if key = k then some v else getItem (dict items) key := by
  show List.lookup key.toList ((k.toList, v) :: dict items) = _
  rw [List.lookup_cons]
  by_cases hkey : key = k
  · rw [if_pos hkey, hkey, beq_self_eq_true]
  · have hne : (key.toList == k.toList) = false :=
      beq_eq_false_iff_ne.mpr fun heq => hkey (String.toList_injective heq)
    rw [if_neg hkey, hne]
    rfl

theorem nodup_dict {items : List (String × Json)} (h : (items.map Prod.fst).Nodup) :
    ((dict items).map Prod.fst).Nodup := by
  have hkeys : (dict items).map Prod.fst = (items.map Prod.fst).map String.toList := by
    unfold dict
    rw [List.map_map, List.map_map]
    rfl
  rw [hkeys]
  exact h.map fun a b heq => String.toList_injective heq

/-- The delta and the finish reason of a chunk are read as they were written. -/
theorem reread_chunk (n : Numerals) (h : Completion) {delta : Dict} (hdelta : (delta.map Prod.fst).Nodup)
    (finishReason : Json) :
    reread n (.obj (h.chunk delta finishReason)) =
      .obj (dict [("id", .str h.cid), ("object", .str "chat.completion.chunk".toList),
        ("created", .num (n.value (n.print h.created))), ("model", .str h.model),
        ("choices", .arr [.obj (dict [("index", .num (n.value (n.print 0))),
          ("delta", .obj (rereadMembers n delta)), ("finish_reason", reread n finishReason)])])]) := by
  have hchoice : reread n (.obj (dict
      [("index", .num 0), ("delta", .obj delta), ("finish_reason", finishReason)])) =
      .obj (dict [("index", .num (n.value (n.print 0))), ("delta", .obj (rereadMembers n delta)),
        ("finish_reason", reread n finishReason)]) := by
    rw [reread_obj n (nodup_dict (by simp))]
    simp only [dict, List.map_cons, List.map_nil, rereadMembers, reread_obj n hdelta]
    rfl
  unfold Completion.chunk
  rw [reread_obj n (nodup_dict (by simp))]
  simp only [dict, List.map_cons, List.map_nil] at hchoice ⊢
  simp only [rereadMembers, reread, rereadItems] at hchoice ⊢
  rw [hchoice]

/-- A chunk is read with the delta that was written. -/
theorem dataLine_chunk (n : Numerals) (h : Completion) {delta : Dict} (hdelta : (delta.map Prod.fst).Nodup)
    (hcalls : getItem (rereadMembers n delta) "tool_calls" = none) {finishReason : Json}
    (hfinish : isText (some (reread n finishReason)) "tool_calls" = false) (p : Pending) :
    dataLine (some (reread n (.obj (h.chunk delta finishReason)))) p =
      ⟨contentEvent (rereadMembers n delta), p, false⟩ := by
  rw [reread_chunk n h hdelta]
  have hhead : chunkHead (some (.obj (dict [("id", .str h.cid),
      ("object", .str "chat.completion.chunk".toList), ("created", .num (n.value (n.print h.created))),
      ("model", .str h.model), ("choices", .arr [.obj (dict [("index", .num (n.value (n.print 0))),
        ("delta", .obj (rereadMembers n delta)), ("finish_reason", reread n finishReason)])])])))
      = .go (contentEvent (rereadMembers n delta)) [] (some (reread n finishReason)) := by
    have hdeltaOf : orElse (some (.obj (rereadMembers n delta))) (.obj []) = .obj (rereadMembers n delta) := by
      unfold orElse
      cases rereadMembers n delta <;> rfl
    have hnoCalls : (orElse (none : Option Json) (.arr [])).iter = .ok [] := rfl
    simp [chunkHead, choicesHead, choiceHead, usageEvent, getItem_dict_cons, getItem_dict_nil, Json.first,
      hdeltaOf, hcalls, hnoCalls]
  unfold dataLine
  rw [hhead]
  simp [mergeCalls, finishEvents, hfinish]

/-! ## Back to the chunks -/

/-- The texts among the events. -/
def textsOf (events : List Event) : List Text :=
  events.filterMap fun
    | .content (.str s) => some s
    | _ => none

def Completion.content (h : Completion) (s : Text) : Dict := h.chunk (dict [("content", .str s)]) .null

theorem read_eq (h : Completion) (events : List Event) :
    (CompatStream.read h events).parts = textsOf events ∧
      (CompatStream.read h events).sent =
        h.chunk (dict [("role", .str "assistant".toList)]) .null :: (textsOf events).map h.content := by
  induction events using List.reverseRecOn with
  | nil => exact ⟨rfl, rfl⟩
  | append_singleton events event ih =>
    obtain ⟨hparts, hsent⟩ := ih
    have hread : CompatStream.read h (events ++ [event]) = (CompatStream.read h events).onEvent h event :=
      List.foldl_concat ..
    have hsame : ∀ s : CompatStream, s.parts = (CompatStream.read h events).parts →
        s.sent = (CompatStream.read h events).sent → textsOf [event] = [] →
        s.parts = textsOf (events ++ [event]) ∧ s.sent =
          h.chunk (dict [("role", .str "assistant".toList)]) .null ::
            (textsOf (events ++ [event])).map h.content := by
      intro s hp hs hnone
      have htexts : textsOf (events ++ [event]) = textsOf events := by
        unfold textsOf at hnone ⊢
        rw [List.filterMap_append, hnone, List.append_nil]
      rw [htexts]
      exact ⟨hp.trans hparts, hs.trans hsent⟩
    rw [hread]
    cases event with
    | usage items => exact hsame _ rfl rfl rfl
    | toolCalls calls => exact hsame _ rfl rfl rfl
    | budgetExceeded => exact hsame _ rfl rfl rfl
    | content v =>
      cases v with
      | str s =>
        have htexts : textsOf (events ++ [.content (.str s)]) = textsOf events ++ [s] := by
          unfold textsOf
          rw [List.filterMap_append]
          rfl
        rw [htexts, List.map_append]
        refine ⟨?_, ?_⟩
        · show _ ++ [s] = _
          rw [hparts]
        · show _ ++ [h.content s] = _
          rw [hsent]
          rfl
      | obj items =>
        unfold CompatStream.onEvent
        dsimp only
        split
        next => exact hsame _ rfl rfl rfl
        next => exact hsame _ rfl rfl rfl
      | null => exact hsame _ rfl rfl rfl
      | bool b => exact hsame _ rfl rfl rfl
      | num q => exact hsame _ rfl rfl rfl
      | arr xs => exact hsame _ rfl rfl rfl

/-- A frame that leaves what is pending. -/
theorem readBody_sse {n : Numerals} {d : Dict} {events : List Event} {p : Pending}
    (h : dataLine (some (reread n (.obj d))) p = ⟨events, p, false⟩) (rest : Text) :
    readBody (linesOf n (sse n d ++ rest)) p =
      (events :: [] :: (readBody (linesOf n rest) p).1, (readBody (linesOf n rest) p).2) := by
  rw [linesOf_sse]
  generalize linesOf n rest = lines
  simp only [readBody, Bool.false_eq_true, if_false, h]

theorem dataLine_content (n : Numerals) (h : Completion) (s : Text) (p : Pending) :
    dataLine (some (reread n (.obj (h.content s)))) p =
      ⟨[Event.content (.str s)].filter isChunk, p, false⟩ := by
  have hdelta : rereadMembers n (dict [("content", .str s)]) = dict [("content", .str s)] := by
    simp [dict, rereadMembers, reread]
  have hcalls : getItem (rereadMembers n (dict [("content", .str s)])) "tool_calls" = none := by
    rw [hdelta]
    simp [getItem_dict_cons, getItem_dict_nil]
  refine (dataLine_chunk n h (nodup_dict (by simp)) hcalls (by rw [reread]; rfl) p).trans ?_
  rw [hdelta]
  unfold contentEvent
  rw [getItem_dict_cons, if_pos rfl]
  cases s with
  | nil => rfl
  | cons c s => rfl

/-- The frames of some texts are read as their chunks. -/
theorem readBody_contents (n : Numerals) (h : Completion) (texts : List Text) (rest : Text) (p : Pending) :
    (readBody (linesOf n ((texts.map h.content).flatMap (sse n) ++ rest)) p).1.flatten =
        (texts.map fun s => Event.content (.str s)).filter isChunk ++
          (readBody (linesOf n rest) p).1.flatten ∧
      (readBody (linesOf n ((texts.map h.content).flatMap (sse n) ++ rest)) p).2 =
        (readBody (linesOf n rest) p).2 := by
  induction texts with
  | nil => exact ⟨rfl, rfl⟩
  | cons s texts ih =>
    rw [List.map_cons, List.flatMap_cons, List.append_assoc, readBody_sse (dataLine_content n h s p)]
    refine ⟨?_, ih.2⟩
    rw [List.flatten_cons, List.flatten_cons, ih.1, List.map_cons, ← List.append_assoc, List.append_nil,
      ← List.append_assoc, ← List.filter_append]
    rfl

theorem filter_isChunk (events : List Event) :
    ((textsOf events).map fun s => Event.content (.str s)).filter isChunk = events.filter isChunk := by
  induction events with
  | nil => rfl
  | cons event events ih =>
    have hother : textsOf [event] = [] → isChunk event = false →
        ((textsOf (event :: events)).map fun s => Event.content (.str s)).filter isChunk =
          (event :: events).filter isChunk := by
      intro hnone hno
      have htexts : textsOf (event :: events) = textsOf events := by
        unfold textsOf at hnone ⊢
        rw [← List.singleton_append, List.filterMap_append, hnone, List.nil_append]
      rw [htexts, ih, List.filter_cons_of_neg (by rw [hno]; simp)]
    cases event with
    | usage items => exact hother rfl rfl
    | toolCalls calls => exact hother rfl rfl
    | budgetExceeded => exact hother rfl rfl
    | content v =>
      cases v with
      | str s =>
        show (Event.content (.str s) :: (textsOf events).map fun s => Event.content (.str s)).filter isChunk = _
        rw [List.filter_cons, List.filter_cons, ih]
      | null => exact hother rfl rfl
      | bool b => exact hother rfl rfl
      | num q => exact hother rfl rfl
      | arr xs => exact hother rfl rfl
      | obj items => exact hother rfl rfl

theorem textOf_isChunk (events : List Event) : textOf (events.filter isChunk) = textOf events := by
  induction events with
  | nil => rfl
  | cons event events ih =>
    have hcons : textOf (event :: events) = textOf [event] ++ textOf events := by
      unfold textOf
      rw [← List.singleton_append, List.flatMap_append]
    by_cases hchunk : isChunk event = true
    · rw [List.filter_cons_of_pos hchunk, hcons, ← ih]
      unfold textOf
      rw [← List.singleton_append, List.flatMap_append]
    · have hnone : textOf [event] = [] := by
        cases event with
        | usage items => rfl
        | toolCalls calls => rfl
        | budgetExceeded => rfl
        | content v =>
          cases v with
          | str s =>
            -- an empty chunk is dropped by the reader
            cases s with
            | nil => rfl
            | cons c s => exact absurd rfl hchunk
          | null => rfl
          | bool b => rfl
          | num q => rfl
          | arr xs => rfl
          | obj items => rfl
      rw [List.filter_cons_of_neg hchunk, hcons, ih, hnone, List.nil_append]

theorem textsOf_flatten (events : List Event) : (textsOf events).flatten = textOf events := by
  induction events with
  | nil => rfl
  | cons event events ih =>
    unfold textsOf textOf at ih ⊢
    rw [List.filterMap_cons, List.flatMap_cons, ← ih]
    split
    next hnone => split at hnone <;> simp_all
    next hsome => split at hsome <;> simp_all

theorem dataLine_role (n : Numerals) (h : Completion) :
    dataLine (some (reread n (.obj
      (h.chunk (dict [("role", .str "assistant".toList)]) .null)))) [] = ⟨[], [], false⟩ := by
  have hdelta : rereadMembers n (dict [("role", .str "assistant".toList)]) =
      dict [("role", .str "assistant".toList)] := by
    simp [dict, rereadMembers, reread]
  have hcalls : getItem (rereadMembers n (dict [("role", .str "assistant".toList)])) "tool_calls" = none := by
    rw [hdelta]
    simp [getItem_dict_cons, getItem_dict_nil]
  refine (dataLine_chunk n h (nodup_dict (by simp)) hcalls (by rw [reread]; rfl) []).trans ?_
  rw [hdelta]
  unfold contentEvent
  rw [getItem_dict_cons, if_neg (by decide)]

theorem dataLine_stop (n : Numerals) (h : Completion) :
    dataLine (some (reread n (.obj (h.chunk [] (.str "stop".toList))))) [] = ⟨[], [], false⟩ := by
  have hfinish : isText (some (reread n (.str "stop".toList))) "tool_calls" = false := by
    rw [reread]
    decide
  have hdelta : (([] : Dict).map Prod.fst).Nodup := List.nodup_nil
  exact dataLine_chunk n h hdelta rfl hfinish []

/-- Read by the line loop of `call_stream`, what the endpoint has written of a
stream is the text chunks of the stream, and ends; the text that is recorded is
theirs, and where nothing is recorded there is none. -/
theorem reads_back (n : Numerals) (h : Completion) (events : List Event) :
    let s := CompatStream.read h events
    let read := readBody (linesOf n (s.body n h)) []
    read.2 = .done ∧ read.1.flatten = events.filter isChunk ∧ textOf read.1.flatten = textOf events ∧
      (s.recorded.map Prod.fst).getD [] = textOf events := by
  intro s read
  obtain ⟨hparts, hsent⟩ := read_eq h events
  have hbody : s.body n h =
      sse n (h.chunk (dict [("role", .str "assistant".toList)]) .null) ++
        (((textsOf events).map h.content).flatMap (sse n) ++
          (sse n (h.chunk [] (.str "stop".toList)) ++ "data: [DONE]\n\n".toList)) := by
    show CompatStream.body n h (CompatStream.read h events) = _
    unfold CompatStream.body
    rw [hsent, List.flatMap_cons, List.append_assoc, List.append_assoc]
  obtain ⟨hchunks, hend⟩ := readBody_contents n h (textsOf events)
    (sse n (h.chunk [] (.str "stop".toList)) ++ "data: [DONE]\n\n".toList) []
  rw [readBody_sse (dataLine_stop n h), linesOf_done, filter_isChunk] at hchunks
  rw [readBody_sse (dataLine_stop n h), linesOf_done] at hend
  have hdone : readBody [⟨false, .done⟩, ⟨false, .other⟩] [] = ([], .done) := rfl
  rw [hdone] at hchunks hend
  have hread : read.1.flatten = events.filter isChunk := by
    show (readBody (linesOf n (s.body n h)) []).1.flatten = _
    rw [hbody, readBody_sse (dataLine_role n h)]
    show (readBody _ []).1.flatten = _
    rw [hchunks]
    exact List.append_nil _
  refine ⟨?_, hread, ?_, ?_⟩
  · show (readBody (linesOf n (s.body n h)) []).2 = .done
    rw [hbody, readBody_sse (dataLine_role n h)]
    exact hend
  · rw [hread, textOf_isChunk]
  · have htext : s.parts.flatten = textOf events := by
      show (CompatStream.read h events).parts.flatten = _
      rw [hparts, textsOf_flatten]
    unfold CompatStream.recorded
    split
    next hnone =>
      -- with no part there is no text
      rw [← htext, List.isEmpty_iff.mp hnone.1]
      rfl
    next => exact htext

end Eidetic.Chat
