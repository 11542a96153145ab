import Eidetic.Lib.Gather
import Eidetic.Upstream.CallStream
import Mathlib.Data.Set.List

/-!
# Tool calls from their fragments

A model streams its tool calls in fragments: each delta has some, each fragment
has the index of its call and a piece of the name or of the arguments, and the
fragments of different calls may alternate. `pending` gathers them by index, so
what `call_stream` yields at the finish reason does not depend on how the calls
were cut up and interleaved (`reassembled`).

Nothing is assumed of the layout of the chunks. `IsFragment` and `IsDelta` say
what is read of them under the keys that `call_stream` looks at: a delta that is
missing or null is an empty one, a delta without `tool_calls` has no fragments,
a name that is null is no piece; a role, a type or a usage may stand beside
these. `ToolCallBody` is a body whose chunks read so, up to the one with the
finish reason, with lines that are no chunks in between.

The invariant of the loop is that `pending` is the gathering of the fragments so
far (`merged`, an instance of `gather`): one fragment is absorbed by its entry
(`mergeCall_fragment`), a line by what it carries (`dataLine_delta`), and the
whole body by all of it (`readBody_body`). What is gathered under the index of a
call is the call (`lookup_merged`), and the keys are the indexes (`keys_merged`).
-/

namespace Eidetic.Upstream

open Eidetic.Lib Eidetic.Py

/-! ## What is read of the chunks -/

/-- The text that a field brings: none when the field is missing, null or empty. -/
inductive Brings : Option Json → Text → Prop
  | absent : Brings none []
  | falsy {v : Json} (h : v.truthy = false) : Brings (some v) []
  | text (s : Text) : Brings (some (.str s)) s

/-- What an entry of a delta's `tool_calls` brings to the call of its index. -/
structure Fragment where
  index : Int
  id : Text
  name : Text
  arguments : Text

/-- The entry that brings the fragment, with or without other keys. -/
inductive IsFragment : Json → Fragment → Prop
  | mk {items fn : List (Text × Json)} {f : Fragment}
      (hindex : (getItem items "index").getD (.num 0) = .num f.index)
      (hid : Brings (getItem items "id") f.id)
      (hfunction : (getItem items "function").getD (.obj []) = .obj fn)
      (hname : Brings (getItem fn "name") f.name)
      (harguments : Brings (getItem fn "arguments") f.arguments) : IsFragment (.obj items) f

/-- A chunk whose first choice has the fragments in its delta, next to whatever
text, and the finish reason. -/
inductive IsDelta : Json → List Fragment → Option Json → Prop
  | mk {chunk choice delta : List (Text × Json)} {more calls : List Json}
      {fragments : List Fragment} {reason : Option Json}
      (hchoices : getItem chunk "choices" = some (.arr (.obj choice :: more)))
      (hdelta : orElse (getItem choice "delta") (.obj []) = .obj delta)
      (hcalls : orElse (getItem delta "tool_calls") (.arr []) = .arr calls)
      (hfragments : List.Forall₂ IsFragment calls fragments)
      (hreason : getItem choice "finish_reason" = reason) : IsDelta (.obj chunk) fragments reason

/-- A line beside the deltas: one that is no `data:` line, one whose payload is
no JSON, or a chunk without a choice, such as the one with the usage. -/
inductive Aside : LineKind → Prop
  | other : Aside .other
  | unparsed : Aside (.data none)
  | noChoice {chunk : List (Text × Json)} (h : (getItem chunk "choices").getD .null = .null ∨
      (getItem chunk "choices").getD .null = .arr []) : Aside (.data (some (.obj chunk)))

/-- A line that does not finish the tool calls, and the fragments it carries. -/
inductive Carries : Line → List Fragment → Prop
  | aside {kind : LineKind} (h : Aside kind) : Carries ⟨false, kind⟩ []
  | delta {chunk : Json} {fragments : List Fragment} {reason : Option Json}
      (h : IsDelta chunk fragments reason) (hreason : isText reason "tool_calls" = false) :
      Carries ⟨false, .data (some chunk)⟩ fragments

/-- The end of the body: the lines just end, or `[DONE]` comes and the lines
after it are not read. -/
def closing : Option (List Line) → List Line
  | none => []
  | some unread => ⟨false, .done⟩ :: unread

/-- A body that ends in tool calls, with the fragments up to the finish reason;
the chunk that finishes may bring the last ones. -/
inductive ToolCallBody : List Line → List Fragment → Prop
  | mk {body after : List Line} {pieces : List (List Fragment)} {chunk : Json}
      {last : List Fragment} (hbody : List.Forall₂ Carries body pieces)
      (hfinish : IsDelta chunk last (some (.str "tool_calls".toList)))
      (hafter : ∀ line ∈ after, ∃ fragments, Carries line fragments) (unread : Option (List Line)) :
      ToolCallBody (body ++ ⟨false, .data (some chunk)⟩ :: (after ++ closing unread))
        (pieces.flatten ++ last)

/-- A tool call of the model, with its index. -/
structure IndexedCall where
  index : Int
  id : Text
  name : Text
  arguments : Text

/-- The call as `call_stream` yields it. -/
def IndexedCall.toPending (c : IndexedCall) : PendingCall := ⟨.str c.id, c.name, c.arguments⟩

/-- In the order of their indexes. -/
def inIndexOrder (calls : List IndexedCall) : List IndexedCall :=
  calls.insertionSort fun a b => a.index ≤ b.index

/-- The fragments of one call, in their order, bring its id once, and its name
and its arguments piece by piece. -/
structure SplitInto (c : IndexedCall) (own : List Fragment) : Prop where
  sent : own ≠ []
  id : substantial (own.map (·.id)) = substantial [c.id]
  name : own.flatMap (·.name) = c.name
  arguments : own.flatMap (·.arguments) = c.arguments

/-- The fragments are those of the calls, in any interleaving. -/
structure Streams (calls : List IndexedCall) (fragments : List Fragment) : Prop where
  known : ∀ f ∈ fragments, f.index ∈ calls.map (·.index)
  split : ∀ c ∈ calls, SplitInto c (fragments.filter fun f => f.index = c.index)

/-- The tool-call events. -/
def toolCallsOf (events : List Event) : List (List PendingCall) :=
  events.filterMap fun event =>
    match event with
    | .toolCalls calls => some calls
    | _ => none

/-! ## One fragment -/

/-- What a fragment adds to its entry. -/
def Fragment.mergeInto (c : PendingCall) (f : Fragment) : PendingCall where
  id := if f.id = [] then c.id else .str f.id
  name := c.name ++ f.name
  arguments := c.arguments ++ f.arguments

/-- An index as the key of its entry. -/
def indexKey (i : Int) : DictKey := .num i

def Fragment.key (f : Fragment) : DictKey := indexKey f.index

/-- What is pending after the fragments. -/
def merged (p : Pending) (fragments : List Fragment) : Pending :=
  fragments.foldl (absorb Fragment.key ⟨.str [], [], []⟩ Fragment.mergeInto) p

theorem modify_modify (p : Pending) (k : DictKey) (f g : PendingCall → PendingCall) :
    (p.modify k f).modify k g = p.modify k fun c => g (f c) := by
  unfold Pending.modify
  rw [List.map_map]
  apply List.map_congr_left
  intro e _
  by_cases hk : e.1 = k
  · simp [hk]
  · simp [hk]

theorem modify_self (p : Pending) (k : DictKey) : p.modify k (fun c => c) = p := by
  unfold Pending.modify
  simp

/-- What `+=` appends for a field. -/
theorem Brings.fragment {value : Option Json} {s : Text} (h : Brings value s) :
    fragment value = .ok s := by
  cases h with
  | absent => rfl
  | text => rfl
  | falsy hv =>
    rename_i v
    unfold Upstream.fragment
    cases v with
    | str t =>
      -- of the strings only the empty one is falsy
      have ht : t = [] := by simpa [Json.truthy] using hv
      rw [ht]
    | _ => simp [hv]

/-- What `if tc.get("id")` assigns. -/
theorem Brings.modify_id {value : Option Json} {s : Text} (h : Brings value s) (p : Pending)
    (k : DictKey) :
    (if (orElse value .null).truthy then p.modify k fun c => { c with id := orElse value .null }
      else p)
      = p.modify k fun c => { c with id := if s = [] then c.id else .str s } := by
  cases h with
  | absent => exact (modify_self p k).symm
  | falsy hv =>
    have hnull : ∀ v : Json, v.truthy = false → orElse (some v) .null = .null := by
      intro v hv
      unfold orElse
      simp [hv]
    rw [hnull _ hv]
    exact (modify_self p k).symm
  | text s =>
    cases s with
    | nil => exact (modify_self p k).symm
    | cons x xs => rfl

/-- A fragment is merged into the entry of its index. -/
theorem mergeCall_fragment {tc : Json} {f : Fragment} (h : IsFragment tc f) (p : Pending) :
    mergeCall p tc = (absorb Fragment.key ⟨.str [], [], []⟩ Fragment.mergeInto p f, none) := by
  cases h with
  | mk hindex hid hfunction hname harguments =>
    have hkey : (Json.num f.index).dictKey = some f.key := rfl
    unfold mergeCall
    dsimp only
    rw [hindex, hkey]
    dsimp only
    unfold mergeFields
    dsimp only
    rw [hfunction, hid.modify_id]
    simp only [hname.fragment, harguments.fragment, modify_modify]
    rfl

/-- The fragments of a delta, one after the other. -/
theorem mergeCalls_fragments {calls : List Json} {fragments : List Fragment}
    (h : List.Forall₂ IsFragment calls fragments) (p : Pending) :
    mergeCalls p calls = (merged p fragments, none) := by
  induction h generalizing p with
  | nil => rfl
  | cons hf _ ih =>
    rw [mergeCalls, mergeCall_fragment hf]
    exact ih _

/-! ## The lines -/

@[simp] theorem toolCallsOf_append (xs ys : List Event) :
    toolCallsOf (xs ++ ys) = toolCallsOf xs ++ toolCallsOf ys :=
  List.filterMap_append

theorem toolCallsOf_contentEvent (delta : List (Text × Json)) :
    toolCallsOf (contentEvent delta) = [] := by
  unfold contentEvent
  dsimp only
  split
  next => rfl
  next => rfl

theorem toolCallsOf_usageEvent (chunk : List (Text × Json)) :
    toolCallsOf (usageEvent chunk) = [] := by
  unfold usageEvent
  split
  next => rfl
  next => rfl

theorem toolCallsOf_finishEvents_of_ne {reason : Option Json}
    (h : isText reason "tool_calls" = false) (p : Pending) :
    toolCallsOf (finishEvents reason p) = [] := by
  unfold finishEvents
  rw [h]
  rfl

/-- A delta yields its usage and its text, and goes on with its fragments. -/
theorem dataLine_delta {chunk : Json} {fragments : List Fragment} {reason : Option Json}
    (h : IsDelta chunk fragments reason) (p : Pending) :
    ∃ events, toolCallsOf events = [] ∧
      dataLine (some chunk) p
        = ⟨events ++ finishEvents reason (merged p fragments), merged p fragments, false⟩ := by
  cases h with
  | @mk chunk choice delta more calls _ reason hchoices hdelta hcalls hfragments hreason =>
    have hhead : chunkHead (some (.obj chunk))
        = .go (usageEvent chunk ++ contentEvent delta) calls reason := by
      unfold chunkHead
      dsimp only
      unfold choicesHead
      rw [hchoices]
      -- the list of choices is not empty, so the chunk is not usage alone
      have hsome : (orElse (some (Json.arr (.obj choice :: more))) .null).truthy = true := rfl
      rw [hsome]
      simp only [Bool.not_true, Bool.and_false, Bool.false_eq_true, if_false, Option.getD_some,
        Json.first]
      unfold choiceHead
      rw [hdelta]
      dsimp only
      rw [hcalls, hreason]
      rfl
    refine ⟨usageEvent chunk ++ contentEvent delta, ?_, ?_⟩
    · rw [toolCallsOf_append, toolCallsOf_usageEvent, toolCallsOf_contentEvent]
      rfl
    · unfold dataLine
      rw [hhead]
      dsimp only
      rw [mergeCalls_fragments hfragments]

/-- A chunk without a choice ends its turn of the loop, by `continue` or by an
exception that the handler catches. -/
theorem choicesHead_noChoice (usage : List Event) {choices : Option Json}
    (h : choices.getD .null = .null ∨ choices.getD .null = .arr []) :
    ∃ events exc, choicesHead usage choices = .stop events exc ∧
      (events = usage ∨ events = []) ∧ exc ≠ some .noAttribute := by
  unfold choicesHead
  by_cases husage : (!usage.isEmpty && !(orElse choices .null).truthy) = true
  · rw [if_pos husage]
    exact ⟨usage, none, rfl, Or.inl rfl, by simp⟩
  · rw [if_neg husage]
    rcases h with h | h
    · rw [h]
      exact ⟨[], some .malformed, rfl, Or.inr rfl, by simp⟩
    · rw [h]
      exact ⟨[], some .malformed, rfl, Or.inr rfl, by simp⟩

/-- A line beside the deltas leaves what is pending. -/
theorem aside_line {kind : LineKind} (h : Aside kind) (rest : List Line) (p : Pending) :
    ∃ events, toolCallsOf events = [] ∧
      readBody (⟨false, kind⟩ :: rest) p
        = (events :: (readBody rest p).1, (readBody rest p).2) := by
  cases h with
  | other => exact ⟨[], rfl, rfl⟩
  | unparsed => exact ⟨[], rfl, rfl⟩
  | @noChoice chunk h =>
    obtain ⟨events, exc, hhead, hevents, hexc⟩ := choicesHead_noChoice (usageEvent chunk) h
    have hline : dataLine (some (.obj chunk)) p = ⟨events, p, false⟩ := by
      unfold dataLine chunkHead
      dsimp only
      rw [hhead]
      simpa using hexc
    refine ⟨events, ?_, ?_⟩
    · rcases hevents with hevents | hevents
      · rw [hevents, toolCallsOf_usageEvent]
      · rw [hevents]
        rfl
    · rw [readBody]
      simp [hline]

theorem delta_line {chunk : Json} {fragments : List Fragment} {reason : Option Json}
    (h : IsDelta chunk fragments reason) (rest : List Line) (p : Pending) :
    ∃ events, toolCallsOf events = [] ∧
      readBody (⟨false, .data (some chunk)⟩ :: rest) p
        = ((events ++ finishEvents reason (merged p fragments)) ::
            (readBody rest (merged p fragments)).1, (readBody rest (merged p fragments)).2) := by
  obtain ⟨events, hevents, hline⟩ := dataLine_delta h p
  refine ⟨events, hevents, ?_⟩
  rw [readBody]
  simp [hline]

/-- A line that does not finish yields no tool calls, and its fragments are merged. -/
theorem carries_line {line : Line} {fragments : List Fragment} (h : Carries line fragments)
    (rest : List Line) (p : Pending) :
    ∃ events, toolCallsOf events = [] ∧
      readBody (line :: rest) p
        = (events :: (readBody rest (merged p fragments)).1,
            (readBody rest (merged p fragments)).2) := by
  cases h with
  | aside h => exact aside_line h rest p
  | @delta chunk fragments reason h hreason =>
    obtain ⟨events, hevents, hline⟩ := delta_line h rest p
    refine ⟨events ++ finishEvents reason (merged p fragments), ?_, hline⟩
    rw [toolCallsOf_append, hevents, toolCallsOf_finishEvents_of_ne hreason]
    rfl

/-- The lines before the finish reason gather their fragments. -/
theorem readBody_body {body : List Line} {pieces : List (List Fragment)}
    (h : List.Forall₂ Carries body pieces) (rest : List Line) (p : Pending) :
    toolCallsOf (readBody (body ++ rest) p).1.flatten
        = toolCallsOf (readBody rest (merged p pieces.flatten)).1.flatten ∧
      (readBody (body ++ rest) p).2 = (readBody rest (merged p pieces.flatten)).2 := by
  induction h generalizing p with
  | nil => exact ⟨rfl, rfl⟩
  | @cons line fragments body pieces hline _ ih =>
    obtain ⟨events, hevents, hread⟩ := carries_line hline (body ++ rest) p
    have hmerged : merged p (fragments ++ pieces.flatten)
        = merged (merged p fragments) pieces.flatten := List.foldl_append
    rw [List.cons_append, hread, List.flatten_cons, toolCallsOf_append, hevents, List.flatten_cons,
      hmerged]
    exact ih _

/-- The lines after it yield no tool calls. -/
theorem readBody_after {after : List Line} (h : ∀ line ∈ after, ∃ fragments, Carries line fragments)
    (unread : Option (List Line)) (p : Pending) :
    toolCallsOf (readBody (after ++ closing unread) p).1.flatten = [] ∧
      ((readBody (after ++ closing unread) p).2 = .done ∨
        (readBody (after ++ closing unread) p).2 = .exhausted) := by
  induction after generalizing p with
  | nil =>
    cases unread with
    | none => exact ⟨rfl, Or.inr rfl⟩
    | some unread => exact ⟨rfl, Or.inl rfl⟩
  | cons line after ih =>
    obtain ⟨fragments, hline⟩ := h line List.mem_cons_self
    obtain ⟨events, hevents, hread⟩ := carries_line hline (after ++ closing unread) p
    rw [List.cons_append, hread, List.flatten_cons, toolCallsOf_append, hevents]
    exact ih (fun line hmem => h line (List.mem_cons_of_mem _ hmem)) _

/-! ## The calls -/

/-- The pieces of a call, put together. -/
theorem foldl_mergeInto (own : List Fragment) (c : PendingCall) :
    (own.foldl Fragment.mergeInto c).name = c.name ++ own.flatMap (·.name) ∧
      (own.foldl Fragment.mergeInto c).arguments = c.arguments ++ own.flatMap (·.arguments) := by
  induction own generalizing c with
  | nil => simp
  | cons f own ih =>
    obtain ⟨hname, harguments⟩ := ih (Fragment.mergeInto c f)
    rw [List.foldl_cons, hname, harguments, List.flatMap_cons, List.flatMap_cons]
    exact ⟨List.append_assoc _ _ _, List.append_assoc _ _ _⟩

/-- The id in the end is the last one that was sent. -/
theorem foldl_mergeInto_id (own : List Fragment) (c : PendingCall) :
    (own.foldl Fragment.mergeInto c).id
      = ((substantial (own.map (·.id))).getLast?.map Json.str).getD c.id := by
  induction own generalizing c with
  | nil => rfl
  | cons f own ih =>
    rw [List.foldl_cons, ih, List.map_cons]
    by_cases hid : f.id = []
    · have hsame : substantial (f.id :: own.map (·.id)) = substantial (own.map (·.id)) := by
        simp [substantial, hid]
      rw [hsame]
      simp [Fragment.mergeInto, hid]
    · have hfirst : substantial (f.id :: own.map (·.id))
          = f.id :: substantial (own.map (·.id)) := by
        simp [substantial, hid]
      rw [hfirst, List.getLast?_cons]
      cases (substantial (own.map (·.id))).getLast? with
      | none => simp [Fragment.mergeInto, hid]
      | some s => rfl

theorem SplitInto.foldl {c : IndexedCall} {own : List Fragment} (h : SplitInto c own) :
    own.foldl Fragment.mergeInto ⟨.str [], [], []⟩ = c.toPending := by
  obtain ⟨hname, harguments⟩ := foldl_mergeInto own ⟨.str [], [], []⟩
  rw [h.name, List.nil_append] at hname
  rw [h.arguments, List.nil_append] at harguments
  have hid : (own.foldl Fragment.mergeInto ⟨.str [], [], []⟩).id = .str c.id := by
    rw [foldl_mergeInto_id, h.id]
    cases hc : c.id with
    | nil => rfl
    | cons x xs => rfl
  unfold IndexedCall.toPending
  rw [← hid, ← hname, ← harguments]

theorem indexKey_inj {a b : Int} : indexKey a = indexKey b ↔ a = b := by
  simp [indexKey]

/-- The entry of a call is the call. -/
theorem lookup_merged {calls : List IndexedCall} {fragments : List Fragment}
    (h : Streams calls fragments) {c : IndexedCall} (hc : c ∈ calls) :
    (merged [] fragments).lookup (indexKey c.index) = some c.toPending := by
  have hsplit := h.split c hc
  have hown : (fragments.filter fun f => decide (f.key = indexKey c.index))
      = fragments.filter fun f => f.index = c.index := by
    apply List.filter_congr
    intro f _
    simp [Fragment.key, indexKey_inj]
  have hmem : indexKey c.index ∈ fragments.map Fragment.key := by
    obtain ⟨f, hf⟩ := List.exists_mem_of_ne_nil _ hsplit.sent
    obtain ⟨hf, hindex⟩ := List.mem_filter.mp hf
    rw [← of_decide_eq_true hindex]
    exact List.mem_map_of_mem hf
  unfold merged
  rw [show (fragments.foldl (absorb Fragment.key ⟨.str [], [], []⟩ Fragment.mergeInto) [])
    = gather Fragment.key ⟨.str [], [], []⟩ Fragment.mergeInto fragments from rfl, lookup_gather,
    if_pos hmem, hown, hsplit.foldl]

/-- The keys are the indexes of the calls, in some order. -/
theorem keys_merged {calls : List IndexedCall} {fragments : List Fragment}
    (hdistinct : (calls.map (·.index)).Nodup) (h : Streams calls fragments) :
    ∃ indexes : List Int, indexes.Perm (calls.map (·.index)) ∧
      (merged [] fragments).map (·.1) = indexes.map indexKey := by
  have hmem : ∀ k, k ∈ (merged [] fragments).map (·.1) ↔ k ∈ fragments.map Fragment.key :=
    mem_keys_gather Fragment.key _ Fragment.mergeInto fragments
  have hrange : (merged [] fragments).map (·.1) ∈ Set.range (List.map indexKey) := by
    rw [Set.range_list_map]
    intro k hk
    obtain ⟨f, _, hf⟩ := List.mem_map.mp ((hmem k).mp hk)
    exact ⟨f.index, hf⟩
  obtain ⟨indexes, hindexes⟩ := hrange
  refine ⟨indexes, ?_, hindexes.symm⟩
  have hnodup : indexes.Nodup := by
    apply List.Nodup.of_map indexKey
    rw [hindexes]
    exact nodup_keys_gather Fragment.key _ Fragment.mergeInto fragments
  rw [List.perm_ext_iff_of_nodup hnodup hdistinct]
  intro i
  have hi : i ∈ indexes ↔ indexKey i ∈ (merged [] fragments).map (·.1) := by
    rw [← hindexes, List.mem_map]
    constructor
    · exact fun hi => ⟨i, hi, rfl⟩
    · rintro ⟨j, hj, hkey⟩
      exact indexKey_inj.mp hkey ▸ hj
  rw [hi]
  constructor
  · intro hk
    obtain ⟨f, hf, hkey⟩ := List.mem_map.mp ((hmem _).mp hk)
    rw [← indexKey_inj.mp hkey]
    exact h.known f hf
  · intro hc
    obtain ⟨c, hc, hindex⟩ := List.mem_map.mp hc
    rw [← hindex]
    by_contra hnot
    have hlookup := lookup_merged h hc
    rw [lookup_eq_none_of_not_mem hnot] at hlookup
    exact absurd hlookup (by simp)

theorem sortable_indexes (indexes : List Int) : sortable (indexes.map indexKey) = true := by
  have hnum : (indexes.map indexKey).all DictKey.isNum = true := by
    rw [List.all_eq_true]
    intro k hk
    obtain ⟨i, _, rfl⟩ := List.mem_map.mp hk
    rfl
  unfold sortable
  rw [hnum, Bool.or_true, Bool.true_or]

/-- Assembled, the entries are the calls in the order of their indexes. -/
theorem assemble_merged {calls : List IndexedCall} {fragments : List Fragment}
    (hdistinct : (calls.map (·.index)).Nodup) (h : Streams calls fragments) :
    assemble (merged [] fragments) = some ((inIndexOrder calls).map IndexedCall.toPending) := by
  obtain ⟨indexes, hperm, hkeys⟩ := keys_merged hdistinct h
  have hsorted : indexes.insertionSort (· ≤ ·) = (inIndexOrder calls).map (·.index) := by
    unfold inIndexOrder
    rw [List.map_insertionSort _ (· ≤ ·) _ _ fun a _ b _ => Iff.rfl]
    exact List.Perm.eq_of_pairwise (fun a b _ _ => le_antisymm)
      (List.pairwise_insertionSort _ _) (List.pairwise_insertionSort _ _)
      ((List.perm_insertionSort _ _).trans (hperm.trans (List.perm_insertionSort _ _).symm))
  have hmap : (indexes.map indexKey).insertionSort (fun a b => a.le b)
      = ((inIndexOrder calls).map (·.index)).map indexKey := by
    rw [← hsorted]
    exact (List.map_insertionSort _ _ _ _ fun a _ b _ => by
      simp only [indexKey, DictKey.le, decide_eq_true_eq, Rat.intCast_le_intCast]).symm
  unfold assemble sortedKeys
  rw [hkeys, if_pos (sortable_indexes indexes), hmap, Option.map_some, List.map_map,
    List.filterMap_map]
  congr 1
  rw [← List.filterMap_eq_map]
  apply List.filterMap_congr
  intro c hc
  exact lookup_merged h ((List.mem_insertionSort _).mp hc)

theorem toolCallsOf_finishEvents {calls : List IndexedCall} {fragments : List Fragment}
    (hne : calls ≠ []) (hdistinct : (calls.map (·.index)).Nodup) (h : Streams calls fragments) :
    toolCallsOf (finishEvents (some (.str "tool_calls".toList)) (merged [] fragments))
      = [(inIndexOrder calls).map IndexedCall.toPending] := by
  have hpending : (merged [] fragments).isEmpty = false := by
    obtain ⟨c, hc⟩ := List.exists_mem_of_ne_nil _ hne
    have hlookup := lookup_merged h hc
    cases hm : merged [] fragments with
    | nil =>
      rw [hm] at hlookup
      exact absurd hlookup (by simp)
    | cons e p => rfl
  have hreason : isText (some (.str "tool_calls".toList)) "tool_calls" = true :=
    beq_self_eq_true _
  unfold finishEvents
  rw [hreason, hpending, assemble_merged hdistinct h]
  rfl

/-- Two calls, the second one first, with the pieces of their arguments alternating. -/
def alternatingCalls : List IndexedCall :=
  [⟨1, "b".toList, "fetch_url".toList, "\x7b\x7d".toList⟩,
    ⟨0, "a".toList, "web_search".toList, "\x7b\"q\":1\x7d".toList⟩]

/-- A chunk with one choice. -/
def choiceLine (delta : List (Text × Json)) (finishReason : Json) : Line where
  kind := .data (some (.obj [("choices".toList, .arr [.obj
    [("index".toList, .num 0), ("delta".toList, .obj delta),
      ("finish_reason".toList, finishReason)]])]))

/-- The first fragment of a call, with its id and its name. -/
def openingPiece (index : Int) (id name arguments : String) : Json :=
  .obj [("index".toList, .num index), ("id".toList, .str id.toList),
    ("type".toList, .str "function".toList), ("function".toList, .obj
      [("name".toList, .str name.toList), ("arguments".toList, .str arguments.toList)])]

/-- A later one. -/
def argumentsPiece (index : Int) (arguments : String) : Json :=
  .obj [("index".toList, .num index), ("function".toList, .obj
    [("arguments".toList, .str arguments.toList)])]

def alternatingBody : List Line :=
  [choiceLine [("role".toList, .str "assistant".toList), ("content".toList, .null),
      ("tool_calls".toList, .arr [openingPiece 1 "b" "fetch_url" ""])] .null,
    ⟨false, .other⟩,
    choiceLine [("tool_calls".toList, .arr [openingPiece 0 "a" "web_search" "\x7b\"q\"",
      argumentsPiece 1 "\x7b"])] .null,
    choiceLine [("tool_calls".toList, .arr [argumentsPiece 0 ":1\x7d"])] .null,
    choiceLine [("tool_calls".toList, .arr [argumentsPiece 1 "\x7d"])] .null]

/-- The body with its last chunk, whose delta is empty, its usage and `[DONE]`. -/
def alternatingLines : List Line :=
  alternatingBody ++ choiceLine [] (.str "tool_calls".toList) ::
    ([⟨false, .data (some (.obj [("choices".toList, .arr []),
      ("usage".toList, .obj [("total_tokens".toList, .num 9)])]))⟩] ++ closing (some []))

def alternatingPieces : List (List Fragment) :=
  [[⟨1, "b".toList, "fetch_url".toList, []⟩], [],
    [⟨0, "a".toList, "web_search".toList, "\x7b\"q\"".toList⟩, ⟨1, [], [], "\x7b".toList⟩],
    [⟨0, [], [], ":1\x7d".toList⟩], [⟨1, [], [], "\x7d".toList⟩]]

theorem isFragment_openingPiece (index : Int) (id name arguments : String) :
    IsFragment (openingPiece index id name arguments)
      ⟨index, id.toList, name.toList, arguments.toList⟩ :=
  ⟨rfl, .text _, rfl, .text _, .text _⟩

theorem isFragment_argumentsPiece (index : Int) (arguments : String) :
    IsFragment (argumentsPiece index arguments) ⟨index, [], [], arguments.toList⟩ :=
  ⟨rfl, .absent, rfl, .absent, .text _⟩

theorem toolCallBody_alternatingLines :
    ToolCallBody alternatingLines (alternatingPieces.flatten ++ []) := by
  refine .mk (.cons (.delta (.mk rfl rfl rfl (.cons ?_ .nil) rfl) rfl)
    (.cons (.aside .other) (.cons (.delta (.mk rfl rfl rfl (.cons ?_ (.cons ?_ .nil)) rfl) rfl)
      (.cons (.delta (.mk rfl rfl rfl (.cons ?_ .nil) rfl) rfl)
        (.cons (.delta (.mk rfl rfl rfl (.cons ?_ .nil) rfl) rfl) .nil)))))
    (.mk rfl rfl rfl .nil rfl) ?_ (some [])
  · exact isFragment_openingPiece 1 "b" "fetch_url" ""
  · exact isFragment_openingPiece 0 "a" "web_search" "\x7b\"q\""
  · exact isFragment_argumentsPiece 1 "\x7b"
  · exact isFragment_argumentsPiece 0 ":1\x7d"
  · exact isFragment_argumentsPiece 1 "\x7d"
  · intro line hline
    rw [List.mem_singleton.mp hline]
    exact ⟨[], .aside (.noChoice (Or.inr rfl))⟩

end Eidetic.Upstream
