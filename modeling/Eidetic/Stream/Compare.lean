import Eidetic.Lib.Merge
import Eidetic.Upstream.CallStream

/-!
# Comparing models

`compare_streams` runs one `call_stream` for each selected model; all of them
put what they receive into one queue, and the events come out of it until every
model has said that it is done. The queue is any interleaving of what the tasks
put into it.

Whatever a `call_stream` yields becomes the content of a token event, also what
is no text, and the token carries the model's id and not the task it comes
from. `faithful_iff` says when the merge is faithful all the same.

What a task puts into the queue is a list, known from its call; the feeds of the
queue are these lists, and the queue is an interleaving of them (the library's
`Merge`). The loop that drains it stops when it has counted as many `__done__`
items as there are models, so it reads the queue to its end (`drain_eq`), and
what is yielded are the tokens in the order of the queue and one `done`. The
rest is reading text off the queue: what stands in it from one task is what the
task has put, in order (`text_task`), and a model's own text is that of all
tasks with its id (`textOn_compareStreams`).
-/

namespace Eidetic.Stream

open Eidetic.Lib Eidetic.Py Eidetic.Upstream

/-- What `call_stream` yields, as the Python value. -/
def valueOf (elapsed : Json) : Upstream.Event → Json
  | .content v => v
  | .usage items => .obj [("__usage__".toList, .obj items)]
  | .toolCalls calls =>
    .obj [("__tool_calls__".toList, .arr (calls.map fun c =>
      .obj [("id".toList, c.id), ("type".toList, .str "function".toList),
        ("function".toList, .obj [("name".toList, .str c.name),
          ("arguments".toList, .str c.arguments)])]))]
  | .budgetExceeded =>
    .obj [("__budget_exceeded__".toList, .bool true), ("elapsed".toList, elapsed)]

/-- One compared model and its call, with the seconds that it reports when it has
exceeded its budget. -/
structure Compared where
  model : Text
  call : CallResult
  elapsed : Json := .null

/-- An item of the queue: a token event, or `{"__done__": model}`. -/
inductive QueueItem
  | token (content : Json) (model : Text)
  | finished (model : Text)

inductive CompareEvent
  | compareStart (models : List (Text × Text))
  | token (content : Json) (model : Text)
  | done

/-- What `_run` puts into the queue; an exception of the call is only logged. -/
def Compared.puts (c : Compared) : List QueueItem :=
  c.call.events.map (fun event => .token (valueOf c.elapsed event) c.model) ++ [.finished c.model]

/-- The loop over the queue while `missing` models are not done; the flag says
whether it ends. -/
def drain : Nat → List QueueItem → List CompareEvent × Bool
  | 0, _ => ([], true)
  -- `queue.get()` waits
  | _ + 1, [] => ([], false)
  | missing + 1, .finished _ :: rest => drain missing rest
  | missing + 1, .token content model :: rest =>
    (.token content model :: (drain (missing + 1) rest).1, (drain (missing + 1) rest).2)

/-- `compare_streams` on a queue; `label` is `_label_for`. -/
def compareStreams (label : Text → Text) (compared : List Compared)
    (queue : List (Nat × QueueItem)) : List CompareEvent :=
  match drain compared.length (queue.map (·.2)) with
  | (tokens, true) =>
    .compareStart (compared.map fun c => (c.model, label c.model)) :: tokens ++ [.done]
  | (tokens, false) => .compareStart (compared.map fun c => (c.model, label c.model)) :: tokens

/-! ## Faithfulness -/

/-- The text of a content that is one. -/
def contentText : Json → Text
  | .str s => s
  | _ => []

/-- The text of the token events of one model. -/
def textOn (model : Text) (events : List CompareEvent) : Text :=
  events.flatMap fun event =>
    match event with
    | .token content m => if m = model then contentText content else []
    | _ => []

/-- Every content is a string, every model has its own text, and `done` comes
once, at the end. -/
structure FaithfulMerge (compared : List Compared) (events : List CompareEvent) : Prop where
  strings : ∀ content model, .token content model ∈ events → ∃ s, content = .str s
  texts : ∀ c ∈ compared, textOn c.model events = c.call.text
  done : ∃ before, events = before ++ [.done] ∧ .done ∉ before

/-! ## The loop over the queue -/

def QueueItem.isFinished : QueueItem → Bool
  | .finished _ => true
  | .token _ _ => false

def QueueItem.event? : QueueItem → Option CompareEvent
  | .token content model => some (.token content model)
  | .finished _ => none

/-- A queue that ends when the last model is done is read to its end. -/
theorem drain_eq (items : List QueueItem)
    (hlast : ∀ earlier item, items = earlier ++ [item] → item.isFinished = true) :
    drain (items.filter QueueItem.isFinished).length items
      = (items.filterMap QueueItem.event?, true) := by
  induction items with
  | nil => rfl
  | cons item rest ih =>
    have hrest : ∀ earlier x, rest = earlier ++ [x] → x.isFinished = true := by
      intro earlier x hx
      exact hlast (item :: earlier) x (by rw [hx, List.cons_append])
    cases item with
    | finished model =>
      change drain ((rest.filter QueueItem.isFinished).length + 1) (.finished model :: rest) = _
      rw [drain]
      exact ih hrest
    | token content model =>
      -- a token is not the last item, so a model is still missing
      have hmissing : ∃ n, (rest.filter QueueItem.isFinished).length = n + 1 := by
        apply Nat.exists_eq_succ_of_ne_zero
        rw [ne_eq, List.length_eq_zero_iff, List.filter_eq_nil_iff]
        intro hnone
        rcases List.eq_nil_or_concat rest with hnil | ⟨earlier, x, hx⟩
        · have htoken := hlast [] (.token content model) (by rw [hnil]; rfl)
          exact absurd htoken (by simp [QueueItem.isFinished])
        · rw [List.concat_eq_append] at hx
          exact hnone x (by rw [hx]; simp) (hrest earlier x hx)
      obtain ⟨n, hn⟩ := hmissing
      have htail := ih hrest
      rw [hn] at htail
      change drain (rest.filter QueueItem.isFinished).length (.token content model :: rest) = _
      rw [hn, drain, htail]
      rfl

theorem puts_finished (c : Compared) : (c.puts.filter QueueItem.isFinished).length = 1 := by
  unfold Compared.puts
  rw [List.filter_append, List.filter_map]
  simp [QueueItem.isFinished, Function.comp_def, List.filter_cons]

/-- A feed is what one of the models puts, or empty. -/
theorem feed_eq (compared : List Compared) (i : Nat) :
    (compared.map Compared.puts).getD i [] = (compared[i]?.map Compared.puts).getD [] := by
  rw [List.getD_eq_getElem?_getD, List.getElem?_map]

theorem feed_of_getElem? {compared : List Compared} {i : Nat} {c : Compared}
    (hc : compared[i]? = some c) : (compared.map Compared.puts).getD i [] = c.puts := by
  rw [feed_eq, hc]
  rfl

variable {compared : List Compared} {queue : List (Nat × QueueItem)}

/-- What `compare_streams` yields: the tokens in the order of the queue, then `done`. -/
theorem compareStreams_eq (label : Text → Text)
    (h : IsMerge (compared.map Compared.puts) queue) :
    compareStreams label compared queue
      = .compareStart (compared.map fun c => (c.model, label c.model)) ::
          (queue.map (·.2)).filterMap QueueItem.event? ++ [.done] := by
  have hcount : ((queue.map (·.2)).filter QueueItem.isFinished).length = compared.length := by
    have hone := h.length_filter QueueItem.isFinished (by
      intro feed hfeed
      obtain ⟨c, _, rfl⟩ := List.mem_map.mp hfeed
      exact puts_finished c)
    rw [List.filter_map, List.length_map]
    simpa [Function.comp_def] using hone
  have hlast : ∀ earlier item, queue.map (·.2) = earlier ++ [item] → item.isFinished = true := by
    intro earlier item hitems
    obtain ⟨pre, post, hq, _, hpost⟩ := List.map_eq_append_iff.mp hitems
    obtain ⟨e, rfl, he⟩ := List.map_eq_singleton_iff.mp hpost
    obtain ⟨i, x⟩ := e
    have hx := h.getLast? hq
    rw [feed_eq] at hx
    cases hc : compared[i]? with
    | none =>
      rw [hc] at hx
      exact absurd hx (by simp)
    | some c =>
      rw [hc] at hx
      have hputs : c.puts.getLast? = some (.finished c.model) := by
        unfold Compared.puts
        rw [List.getLast?_append]
        rfl
      rw [Option.map_some, Option.getD_some, hputs] at hx
      rw [← show x = item from he, ← Option.some.inj hx]
      rfl
  have hdrain := drain_eq _ hlast
  rw [hcount] at hdrain
  unfold compareStreams
  rw [hdrain]

/-! ## The text of a model -/

/-- The text an item brings. -/
def QueueItem.text : QueueItem → Text
  | .token content _ => contentText content
  | .finished _ => []

def QueueItem.model : QueueItem → Text
  | .token _ model => model
  | .finished model => model

theorem textOf_eq (elapsed : Json) (events : List Upstream.Event) :
    Upstream.textOf events = events.flatMap fun event => contentText (valueOf elapsed event) := by
  unfold Upstream.textOf
  apply congrArg (fun f => events.flatMap f)
  funext event
  cases event with
  | content v => cases v <;> rfl
  | usage items => rfl
  | toolCalls calls => rfl
  | budgetExceeded => rfl

/-- What a model puts has the text of its call. -/
theorem text_puts (c : Compared) : c.puts.flatMap QueueItem.text = c.call.text := by
  unfold Compared.puts CallResult.text
  rw [List.flatMap_append, List.flatMap_map, textOf_eq c.elapsed]
  exact List.append_nil _

theorem model_puts {c : Compared} {item : QueueItem} (h : item ∈ c.puts) : item.model = c.model := by
  unfold Compared.puts at h
  rcases List.mem_append.mp h with h | h
  · obtain ⟨event, _, rfl⟩ := List.mem_map.mp h
    rfl
  · rw [List.mem_singleton.mp h]
    rfl

/-- The text on a model, read off the queue. -/
theorem textOn_compareStreams (label : Text → Text)
    (h : IsMerge (compared.map Compared.puts) queue) (model : Text) :
    textOn model (compareStreams label compared queue)
      = queue.flatMap fun e => if e.2.model = model then e.2.text else [] := by
  have hitems : textOn model ((queue.map (·.2)).filterMap QueueItem.event?)
      = queue.flatMap fun e => if e.2.model = model then e.2.text else [] := by
    clear h
    induction queue with
    | nil => rfl
    | cons e queue ih =>
      obtain ⟨i, item⟩ := e
      rw [List.map_cons, List.flatMap_cons, ← ih]
      cases item with
      | token content m => rfl
      | finished m =>
        simp only [List.filterMap_cons, QueueItem.event?, QueueItem.text, ite_self, List.nil_append]
  rw [compareStreams_eq label h, ← hitems]
  unfold textOn
  rw [List.cons_append, List.flatMap_cons, List.flatMap_append]
  simp

/-- The text that comes from one of the tasks. -/
theorem text_task (h : IsMerge (compared.map Compared.puts) queue) {i : Nat} {c : Compared}
    (hc : compared[i]? = some c) :
    (queue.flatMap fun e => if e.1 = i then e.2.text else []) = c.call.text := by
  rw [h.flatMap, feed_of_getElem? hc, text_puts]

/-- An entry of the queue belongs to the task of its index. -/
theorem exists_task (h : IsMerge (compared.map Compared.puts) queue) {e : Nat × QueueItem}
    (he : e ∈ queue) : ∃ c, compared[e.1]? = some c ∧ e.2 ∈ c.puts := by
  have hmem := h.mem_feed he
  rw [feed_eq] at hmem
  cases hc : compared[e.1]? with
  | none =>
    rw [hc] at hmem
    exact absurd hmem List.not_mem_nil
  | some c =>
    rw [hc] at hmem
    exact ⟨c, rfl, hmem⟩

/-- Every value the calls yield is a text chunk. -/
def OnlyText (compared : List Compared) : Prop :=
  ∀ c ∈ compared, ∀ event ∈ c.call.events, ∃ s, event = .content (.str s)

/-- Calls of one model, compared with itself, yield no text. -/
def Distinguished (compared : List Compared) : Prop :=
  ∀ (i j : Nat) (c d : Compared), i ≠ j → compared[i]? = some c → compared[j]? = some d →
    c.model = d.model → c.call.text = []

theorem strings_iff (label : Text → Text) (h : IsMerge (compared.map Compared.puts) queue) :
    (∀ content model, .token content model ∈ compareStreams label compared queue →
        ∃ s, content = .str s) ↔ OnlyText compared := by
  rw [compareStreams_eq label h]
  constructor
  · intro hstrings c hc event hevent
    obtain ⟨i, hi⟩ := List.mem_iff_getElem?.mp hc
    have hput : QueueItem.token (valueOf c.elapsed event) c.model ∈ c.puts :=
      List.mem_append_left _ (List.mem_map_of_mem hevent)
    have hqueue := h.mem_queue (i := i) (by rw [feed_of_getElem? hi]; exact hput)
    have hitem : CompareEvent.token (valueOf c.elapsed event) c.model
        ∈ (queue.map (·.2)).filterMap QueueItem.event? :=
      List.mem_filterMap.mpr ⟨_, List.mem_map_of_mem hqueue, rfl⟩
    obtain ⟨s, hs⟩ := hstrings (valueOf c.elapsed event) c.model
      (List.mem_append_left _ (List.mem_cons_of_mem _ hitem))
    cases event with
    | content v => exact ⟨s, by rw [show v = .str s from hs]⟩
    | usage items => exact absurd hs (by simp [valueOf])
    | toolCalls calls => exact absurd hs (by simp [valueOf])
    | budgetExceeded => exact absurd hs (by simp [valueOf])
  · intro honly content model hmem
    have hitem : CompareEvent.token content model
        ∈ (queue.map (·.2)).filterMap QueueItem.event? := by
      simpa using hmem
    obtain ⟨item, hitem, heq⟩ := List.mem_filterMap.mp hitem
    obtain ⟨e, he, rfl⟩ := List.mem_map.mp hitem
    obtain ⟨c, hc, hput⟩ := exists_task h he
    cases hx : e.2 with
    | finished m =>
      rw [hx] at heq
      exact absurd heq (by simp [QueueItem.event?])
    | token v m =>
      rw [hx] at heq hput
      unfold Compared.puts at hput
      rcases List.mem_append.mp hput with hput | hput
      · obtain ⟨event, hevent, htoken⟩ := List.mem_map.mp hput
        obtain ⟨s, rfl⟩ := honly c (List.mem_of_getElem? hc) event hevent
        have hv : v = .str s := (QueueItem.token.inj htoken).1.symm
        have hcontent : v = content := (CompareEvent.token.inj (Option.some.inj heq)).1
        exact ⟨s, hcontent.symm.trans hv⟩
      · exact absurd (List.mem_singleton.mp hput) (by simp)

theorem texts_iff (label : Text → Text) (h : IsMerge (compared.map Compared.puts) queue) :
    (∀ c ∈ compared, textOn c.model (compareStreams label compared queue) = c.call.text) ↔
      Distinguished compared := by
  constructor
  · intro htexts i j c d hij hc hd hmodel
    have hci := htexts c (List.mem_of_getElem? hc)
    have hdj := htexts d (List.mem_of_getElem? hd)
    rw [textOn_compareStreams label h] at hci hdj
    -- the text on the model has room for both texts
    have hboth := length_flatMap_two (fun e : Nat × QueueItem =>
        if e.2.model = c.model then e.2.text else [])
      (fun e => if e.1 = i then e.2.text else []) (fun e => if e.1 = j then e.2.text else [])
      queue (by
        intro e he
        obtain ⟨t, ht, hput⟩ := exists_task h he
        by_cases hi : e.1 = i
        · have htc : t = c := by
            rw [hi, hc] at ht
            exact (Option.some.inj ht).symm
          rw [if_pos hi, if_neg (fun hj => hij (hi.symm.trans hj)),
            if_pos ((model_puts hput).trans (by rw [htc]))]
          simp
        · by_cases hj : e.1 = j
          · have htd : t = d := by
              rw [hj, hd] at ht
              exact (Option.some.inj ht).symm
            rw [if_neg hi, if_pos hj, if_pos ((model_puts hput).trans (by rw [htd, hmodel]))]
            simp
          · rw [if_neg hi, if_neg hj]
            simp)
    rw [text_task h hc, text_task h hd, hci] at hboth
    rw [← hmodel, hci] at hdj
    rw [← List.length_eq_zero_iff]
    rw [← hdj] at hboth
    omega
  · intro hdist c hc
    obtain ⟨i, hi⟩ := List.mem_iff_getElem?.mp hc
    rw [textOn_compareStreams label h, ← text_task h hi]
    apply List.flatMap_congr
    intro e he
    obtain ⟨t, ht, hput⟩ := exists_task h he
    by_cases hei : e.1 = i
    · have htc : t = c := by
        rw [hei, hi] at ht
        exact (Option.some.inj ht).symm
      rw [if_pos hei, if_pos ((model_puts hput).trans (by rw [htc]))]
    · rw [if_neg hei]
      split
      next hmodel =>
        -- another task of the same model, so one without text
        have hnil := hdist e.1 i t c hei ht hi ((model_puts hput).symm.trans hmodel)
        rw [← text_puts, List.flatMap_eq_nil_iff] at hnil
        exact hnil e.2 hput
      next => rfl

/-- The merge is faithful exactly when the calls yield nothing but text and no
two of them with text are of the same model. -/
theorem faithful_iff (label : Text → Text) (h : IsMerge (compared.map Compared.puts) queue) :
    FaithfulMerge compared (compareStreams label compared queue) ↔
      OnlyText compared ∧ Distinguished compared := by
  constructor
  · intro hf
    exact ⟨(strings_iff label h).mp hf.strings, (texts_iff label h).mp hf.texts⟩
  · rintro ⟨honly, hdist⟩
    refine ⟨(strings_iff label h).mpr honly, (texts_iff label h).mpr hdist, ?_⟩
    rw [compareStreams_eq label h]
    refine ⟨_, rfl, ?_⟩
    intro hmem
    rcases List.mem_cons.mp hmem with hmem | hmem
    · exact CompareEvent.noConfusion hmem
    · obtain ⟨item, _, heq⟩ := List.mem_filterMap.mp hmem
      cases item with
      | token v m => exact absurd heq (by simp [QueueItem.event?])
      | finished m => exact absurd heq (by simp [QueueItem.event?])

/-- A model that answers "Hi" and then reports its usage, as it is asked to. -/
def reportingModel : Compared where
  model := "m".toList
  call := callStream [⟨false, .response 200
    [contentLine "Hi",
      ⟨false, .data (some (.obj [("choices".toList, .arr []),
        ("usage".toList, .obj [("prompt_tokens".toList, .num 1)])]))⟩,
      ⟨false, .done⟩] false⟩]

/-- Its items, with no other model to interleave them with. -/
def reportingQueue : List (Nat × QueueItem) :=
  [(0, .token (.str "Hi".toList) "m".toList),
    (0, .token (.obj [("__usage__".toList, .obj [("prompt_tokens".toList, .num 1)])]) "m".toList),
    (0, .finished "m".toList)]

/-- The usage record becomes the content of a token. -/
theorem reportingModel_not_faithful :
    IsMerge ([reportingModel].map Compared.puts) reportingQueue ∧
      ¬ FaithfulMerge [reportingModel] (compareStreams id [reportingModel] reportingQueue) := by
  constructor
  · intro i
    match i with
    | 0 => rfl
    | i + 1 => simp [reportingQueue]
  · intro h
    obtain ⟨s, hs⟩ := h.strings
      (.obj [("__usage__".toList, .obj [("prompt_tokens".toList, .num 1)])]) "m".toList
      (by simp [compareStreams, drain, reportingQueue])
    exact Json.noConfusion hs

/-- Two models, of which one answers with text only and one raises. -/
def twoModels : List Compared :=
  [⟨"a".toList, ⟨[.content (.str "x".toList)], .success⟩, .null⟩,
    ⟨"b".toList, ⟨[], .raised⟩, .null⟩]

theorem faithful_two :
    FaithfulMerge twoModels
      (compareStreams id twoModels
        [(1, .finished "b".toList), (0, .token (.str "x".toList) "a".toList),
          (0, .finished "a".toList)]) := by
  refine (faithful_iff id ?_).mpr ⟨?_, ?_⟩
  · intro i
    match i with
    | 0 => rfl
    | 1 => rfl
    | i + 2 => simp [twoModels]
  · intro c hc event hevent
    rcases List.mem_cons.mp hc with rfl | hc
    · exact ⟨_, List.mem_singleton.mp hevent⟩
    · rw [List.mem_singleton.mp hc] at hevent
      exact absurd hevent List.not_mem_nil
  · intro i j c d hij hc hd hmodel
    match i, j, hc, hd with
    | 0, 0, _, _ => exact absurd rfl hij
    | 1, _, rfl, _ => rfl
    | 0, 1, rfl, rfl => exact absurd hmodel (by decide)
    | 0, j + 2, _, hd => exact absurd hd (by simp [twoModels])
    | i + 2, _, hc, _ => exact absurd hc (by simp [twoModels])

end Eidetic.Stream
