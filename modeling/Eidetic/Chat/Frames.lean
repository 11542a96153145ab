import Eidetic.Chat.Reader

/-!
# The frames of a response

The events as the frontend reads them from the body: however the body is cut
into chunks, it handles one event after the other (`readAll_body`), and what an
event does to the text that is shown depends on its type and, for a token, its
content.

The dicts are written by `json.dumps` and read by `JSON.parse`, so what is said
of them has to survive the reading. Their keys and values do (`Typed.reread`),
since a dict that is dumped has no key twice. A frame is one line of ASCII with
an empty line behind it (`newline_not_mem`, `readSymbols_sse`), and the reader
of the library does not depend on how its input is cut, nor does the decoder of
its bytes, so `readAll_body` is about any chunks.

`Typed` is all that the frontend needs to know of an event: it looks at the
type, and at the content of a token. For each event of a turn there is the lemma
that its dict has its type (`typed_status` and so on), and for each type what it
shows (`onDict_done`, `onDict_token`, `onDict_preambleDiscard`, `onDict_other`).
-/

namespace Eidetic.Chat

open Eidetic.Lib Eidetic.Py Eidetic.Stream

/-! ## Dicts that begin with their type -/

/-- A dict with this type, and no other. -/
def Typed (type : String) (d : Dict) : Prop :=
  ∃ rest, d = ("type".toList, .str type.toList) :: rest ∧ ∀ item ∈ rest, item.1 ≠ "type".toList

theorem Typed.getItem {type : String} {d : Dict} (h : Typed type d) :
    getItem d "type" = some (.str type.toList) := by
  obtain ⟨rest, rfl, -⟩ := h
  rfl

theorem mem_setItem {items : Dict} {key : Text} {value : Json} {item : Text × Json}
    (h : item ∈ setItem items key value) : item ∈ items ∨ item.1 = key := by
  unfold setItem at h
  split at h
  next =>
    obtain ⟨old, hold, heq⟩ := List.mem_map.mp h
    split at heq
    next => exact Or.inr (by rw [← heq])
    next => exact Or.inl (heq ▸ hold)
  next =>
    rcases List.mem_append.mp h with h | h
    · exact Or.inl h
    · exact Or.inr (by rw [List.mem_singleton.mp h])

theorem Typed.setItem {type : String} {d : Dict} (h : Typed type d) {key : Text} {value : Json}
    (hkey : key ≠ "type".toList) : Typed type (setItem d key value) := by
  obtain ⟨rest, rfl, hrest⟩ := h
  refine ⟨Py.setItem rest key value, ?_, ?_⟩
  · have hne : ("type".toList = key) = False := eq_false (Ne.symm hkey)
    unfold Py.setItem
    rw [List.any_cons]
    simp only [hne, decide_false, Bool.false_or]
    split
    next => simp only [List.map_cons, hne, if_false]
    next => rw [List.cons_append]
  · intro item hitem
    rcases mem_setItem hitem with hmem | heq
    · exact hrest item hmem
    · rw [heq]
      exact hkey

theorem Typed.update {type : String} {d more : Dict} (h : Typed type d)
    (hmore : ∀ item ∈ more, item.1 ≠ "type".toList) : Typed type (update d more) := by
  induction more generalizing d with
  | nil => exact h
  | cons item more ih =>
    exact ih (h.setItem (hmore item (List.mem_cons_self ..)))
      fun x hx => hmore x (List.mem_cons_of_mem _ hx)

theorem mem_rereadMembers {n : Numerals} {items : Dict} {item : Text × Json}
    (h : item ∈ rereadMembers n items) : ∃ old ∈ items, old.1 = item.1 := by
  induction items with
  | nil => exact absurd h (by simp [rereadMembers])
  | cons first items ih =>
    rw [rereadMembers] at h
    rcases List.mem_cons.mp h with rfl | h
    · exact ⟨first, List.mem_cons_self .., rfl⟩
    · obtain ⟨old, hold, heq⟩ := ih h
      exact ⟨old, List.mem_cons_of_mem _ hold, heq⟩

/-- What is read back of a typed dict has its type. -/
theorem Typed.reread {type : String} {d : Dict} (h : Typed type d) (n : Numerals) :
    Typed type (dictOf (rereadMembers n d)) := by
  obtain ⟨rest, rfl, hrest⟩ := h
  have hfirst : Typed type (Py.setItem [] "type".toList (.str type.toList)) :=
    ⟨[], rfl, fun item hitem => absurd hitem (by simp)⟩
  have hrereads : ∀ item ∈ rereadMembers n rest, item.1 ≠ "type".toList := by
    intro item hitem
    obtain ⟨old, hold, heq⟩ := mem_rereadMembers hitem
    rw [← heq]
    exact hrest old hold
  exact hfirst.update hrereads

/-- The keys of a dict are those of its pairs. -/
theorem mem_dictOf {pairs : Dict} {item : Text × Json} (h : item ∈ dictOf pairs) :
    ∃ pair ∈ pairs, pair.1 = item.1 := by
  have hgeneral : ∀ (pairs items : Dict),
      item ∈ pairs.foldl (fun d pair => Py.setItem d pair.1 pair.2) items →
      item ∈ items ∨ ∃ pair ∈ pairs, pair.1 = item.1 := by
    intro pairs
    induction pairs with
    | nil => exact fun items h => Or.inl h
    | cons pair pairs ih =>
      intro items h
      rcases ih _ h with hmem | ⟨pair', hpair', heq⟩
      · rcases mem_setItem hmem with hmem | heq
        · exact Or.inl hmem
        · exact Or.inr ⟨pair, List.mem_cons_self .., heq.symm⟩
      · exact Or.inr ⟨pair', List.mem_cons_of_mem _ hpair', heq⟩
  rcases hgeneral pairs [] h with hmem | hpair
  · exact absurd hmem (by simp)
  · exact hpair

/-! ## The frames as they are read -/

/-- A frame that is read. -/
def Shown.onDict (n : Numerals) (m : Shown) (d : Dict) : Shown := m.onEvent n (reread n (.obj d))

theorem trim_id {t : Text} {a b : Char} {middle : Text} (ht : t = a :: (middle ++ [b]))
    (ha : isScriptSpace a = false) (hb : isScriptSpace b = false) : trim t = t := by
  have hfront : t.dropWhile isScriptSpace = t := by
    rw [ht, List.dropWhile_cons_of_neg (by rw [ha]; simp)]
  have hback : t.reverse = b :: (middle.reverse ++ [a]) := by
    rw [ht]
    simp
  rw [trim, hfront, hback, List.dropWhile_cons_of_neg (by rw [hb]; simp), ← hback,
    List.reverse_reverse]

theorem dumps_obj (n : Numerals) (d : Dict) :
    ∃ middle, dumps n (.obj d) = '{' :: (middle ++ ['}']) := by
  rw [dumps]
  exact ⟨_, rfl⟩

theorem onLine_frame (n : Numerals) (m : Shown) (d : Dict) :
    m.onLine n ("data: ".toList ++ dumps n (.obj d)) = m.onDict n d := by
  obtain ⟨middle, hdumps⟩ := dumps_obj n d
  have hprefix : startsWith ("data: ".toList ++ dumps n (.obj d)) "data: ".toList = true := by
    rw [startsWith_iff]
    exact List.prefix_append _ _
  have hdrop : ("data: ".toList ++ dumps n (.obj d)).drop 6 = dumps n (.obj d) := rfl
  have htrim : trim (dumps n (.obj d)) = dumps n (.obj d) :=
    trim_id hdumps (by decide) (by decide)
  have hne : (dumps n (.obj d)).isEmpty = false := by rw [hdumps]; rfl
  unfold Shown.onLine
  rw [if_pos hprefix, hdrop, htrim]
  dsimp only
  rw [hne, if_neg (by simp), loads_dumps]
  rfl

theorem isAscii_sse (n : Numerals) (d : Dict) : ∀ c ∈ sse n d, isAscii c = true := by
  intro c hc
  rw [sse_eq] at hc
  rcases List.mem_append.mp hc with hc | hc
  · rcases List.mem_append.mp hc with hc | hc
    · have hlead : ∀ c ∈ "data: ".toList, isAscii c = true := List.all_eq_true.mp (by decide)
      exact hlead c hc
    · have hprintable := isPrintable_dumps n (.obj d) c hc
      rw [isPrintable, Bool.and_eq_true, decide_eq_true_eq, decide_eq_true_eq] at hprintable
      exact decide_eq_true (Nat.le_trans hprintable.2 (by decide))
  · have hend : ∀ c ∈ ['\n', '\n'], isAscii c = true := List.all_eq_true.mp (by decide)
    exact hend c hc

/-- There is no line feed in a frame but those at its end. -/
theorem newline_not_mem (n : Numerals) (d : Dict) :
    '\n' ∉ "data: ".toList ++ dumps n (.obj d) := by
  intro hmem
  rcases List.mem_append.mp hmem with hmem | hmem
  · exact absurd hmem (by decide)
  · exact absurd (isPrintable_dumps n (.obj d) _ hmem) (by decide)

/-- A frame is a line with an event, and an empty line. -/
theorem readSymbols_sse (n : Numerals) (m : Shown) (d : Dict) (rest : Text) :
    (sse n d ++ rest).foldl (readSymbol '\n' (Shown.onLine n)) ([], m)
      = rest.foldl (readSymbol '\n' (Shown.onLine n)) ([], m.onDict n d) := by
  have hsplit : sse n d ++ rest
      = ("data: ".toList ++ dumps n (.obj d)) ++ '\n' :: ([] ++ '\n' :: rest) := by
    rw [sse_eq, List.append_assoc]
    rfl
  rw [hsplit, readSymbols_line '\n' (Shown.onLine n) m (newline_not_mem n d), onLine_frame,
    readSymbols_line '\n' (Shown.onLine n) _ (by simp)]
  rfl

/-- However the body is cut, the events are read as they were sent. -/
theorem readAll_body (n : Numerals) (events : List Dict) {chunks : List (List UInt8)}
    (h : chunks.flatten = utf8 (events.flatMap (sse n))) :
    readAll n chunks = events.foldl (Shown.onDict n) {} := by
  have hascii : ∀ c ∈ events.flatMap (sse n), isAscii c = true := by
    intro c hc
    obtain ⟨d, -, hd⟩ := List.mem_flatMap.mp hc
    exact isAscii_sse n d c hd
  have hfold : ∀ m : Shown,
      (events.flatMap (sse n)).foldl (readSymbol '\n' (Shown.onLine n)) ([], m)
        = ([], events.foldl (Shown.onDict n) m) := by
    intro m
    clear h hascii
    induction events generalizing m with
    | nil => rfl
    | cons d events ih => rw [List.flatMap_cons, readSymbols_sse, ih, List.foldl_cons]
  have hread : chunks.foldl (readOn n) ({}, [], {}) = _ :=
    readChunks_eq '\n' (Shown.onLine n) decodeByte chunks ({}, [], {}) (by simp)
  rw [readAll, hread, h, decode_utf8_ascii hascii rfl, hfold]

/-! ## What the events show -/

/-- The events that change what is shown, or look at it. -/
def changesText (type : String) : Bool :=
  ["token", "preamble_discard", "done", "error"].any fun name => type.toList == name.toList

theorem onDict_other {n : Numerals} {type : String} {d : Dict} (h : Typed type d)
    (hother : changesText type = false) (m : Shown) : m.onDict n d = m := by
  simp only [changesText, List.any_cons, List.any_nil, Bool.or_false, Bool.or_eq_false_iff]
    at hother
  obtain ⟨htoken, hpreamble, hdone, herror⟩ := hother
  have htype := (h.reread n).getItem
  rw [Shown.onDict, reread, Shown.onEvent]
  simp only [htype, isText, htoken, hpreamble, hdone, herror, Bool.false_eq_true, if_false]

theorem onDict_done {n : Numerals} {d : Dict} (h : Typed "done" d) (m : Shown) :
    m.onDict n d = { m with atDone := some m.text } := by
  have htype := (h.reread n).getItem
  rw [Shown.onDict, reread, Shown.onEvent]
  simp only [htype]
  rfl

theorem onDict_token (n : Numerals) (t : Text) (m : Shown) :
    m.onDict n (toDict (.token t)) = { m with text := m.text ++ t } := by
  have hread : reread n (.obj (toDict (.token t)))
      = .obj [("type".toList, .str "token".toList), ("content".toList, .str t)] := by
    simp [toDict, dict, reread, rereadMembers, dictOf, setItem]
  rw [Shown.onDict, hread]
  rfl

theorem onDict_preambleDiscard (n : Numerals) (m : Shown) :
    m.onDict n (toDict .preambleDiscard) = { m with text := [] } := by
  have hread : reread n (.obj (toDict .preambleDiscard))
      = .obj [("type".toList, .str "preamble_discard".toList)] := by
    simp [toDict, dict, reread, rereadMembers, dictOf, setItem]
  rw [Shown.onDict, hread]
  rfl

theorem typed_dict (type : String) (rest : List (String × Json))
    (h : ∀ item ∈ rest, item.1.toList ≠ "type".toList) :
    Typed type (dict (("type", .str type.toList) :: rest)) := by
  refine ⟨dict rest, rfl, fun item hitem => ?_⟩
  obtain ⟨old, hold, rfl⟩ := List.mem_map.mp hitem
  exact h old hold

theorem Typed.append {type : String} {d more : Dict} (h : Typed type d)
    (hmore : ∀ item ∈ more, item.1 ≠ "type".toList) : Typed type (d ++ more) := by
  obtain ⟨rest, rfl, hrest⟩ := h
  refine ⟨rest ++ more, rfl, fun item hitem => ?_⟩
  exact (List.mem_append.mp hitem).elim (hrest item) (hmore item)

theorem typed_status (stage detail level : Text) (ms : Option Nat) :
    Typed "status" (toDict (.status stage detail level ms)) := by
  have hstatus := typed_dict "status" [("stage", .str stage), ("detail", .str detail),
    ("level", .str level)] (by simp)
  cases ms with
  | none => exact hstatus.append (by simp)
  | some ms => exact hstatus.append (by simp [dict])

theorem typed_toolCall (name : Text) (args : List (Text × Json)) :
    Typed "tool_call" (toDict (.toolCall name args)) :=
  typed_dict "tool_call" [("name", .str name), ("args", .obj args)] (by simp)

theorem typed_toolResult (name content : Text) :
    Typed "tool_result" (toDict (.toolResult name content)) :=
  typed_dict "tool_result" [("name", .str name), ("content", .str content)] (by simp)

theorem typed_doneDict (d : DoneEvent) : Typed "done" (doneDict d) := by
  have hdone := typed_dict "done" [("model", .str d.model), ("cache_hit", .bool d.cacheHit),
    ("fallback_used", .bool d.fallbackUsed), ("web_searched", .bool d.webSearched),
    ("url_fetched", .bool d.urlFetched)] (by simp)
  unfold doneDict
  refine Typed.append (Typed.append hdone ?_) ?_
  · cases d.driveRead with
    | none => simp
    | some read => simp [dict]
  · split
    next => simp
    next => simp [dict]

end Eidetic.Chat
