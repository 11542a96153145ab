import Eidetic.Upstream.Chunk

/-!
# Which `data:` lines the stream parser tolerates

A line is tolerated when, put anywhere between other lines, it neither raises
nor changes what the other lines yield. The handler around the loop body
catches the exceptions of malformed data, but not the `AttributeError` of a
`.get` on something that is no dict, and what a tool-call fragment has merged
before an exception stays merged. So a line is tolerated exactly when its
shape keeps it away from both (`tolerated_iff`): the body ends, or fails with
a caught exception, before the first fragment is merged.

A line is split as the loop body is, into its head and the fragments. The shape
of a payload says what the head comes to: it ends, fails with an exception that
is caught, or goes on (`chunkHead_harmless` and the lemmas under it follow the
keys that the head reads). A harmless line merges nothing, so the rest of the
body is read as if it were not there, wherever it stands.

For the converse a line that is not harmless is told by what follows it. If it
raises, the end of the body does. If it merges something into an empty
`pending`, a line with a finish reason after it yields tool calls, or raises
because the keys of the entries cannot be sorted, where it would have yielded
none.
-/

namespace Eidetic.Upstream

open Eidetic.Py

/-- Inserting the payload between any other lines neither raises nor changes
the events of the other lines. -/
def Tolerated (payload : Option Json) : Prop :=
  ∀ pre post : List Line,
    (readBody (pre ++ ⟨false, .data payload⟩ :: post) []).2 = (readBody (pre ++ post) []).2 ∧
    (readBody (pre ++ ⟨false, .data payload⟩ :: post) []).1.eraseIdx pre.length
      = (readBody (pre ++ post) []).1

/-- The `tool_calls` that merge nothing: absent or empty, not iterable, or a
list whose first entry is a dict with an unhashable index. -/
def harmlessCalls : Option Json → Bool
  | some (.arr (.obj tc :: _)) => ((getItem tc "index").getD (.num 0)).dictKey.isNone
  | some (.arr (_ :: _)) | some (.str (_ :: _)) | some (.obj (_ :: _)) => false
  | _ => true

/-- The `choices` that end the line harmlessly: nothing to index, or a first
choice that is an object with no delta or one that merges nothing. -/
def harmlessChoices : Option Json → Bool
  | some (.arr (.obj choice :: _)) =>
    match getItem choice "delta" with
    | some (.obj delta) => harmlessCalls (getItem delta "tool_calls")
    | some d => !d.truthy
    | none => true
  | some (.arr (_ :: _)) | some (.str (_ :: _)) => false
  | _ => true

/-- The payloads that are no JSON, or an object with harmless choices. -/
def Harmless : Option Json → Bool
  | none => true
  | some (.obj chunk) => harmlessChoices (getItem chunk "choices")
  | some _ => false

/-- The heads that keep the line away from the merge and from the uncaught
exception. -/
def Head.harmless : Head → Bool
  | .stop _ exc => exc != some .noAttribute
  | .go _ [] _ => true
  | .go _ (.obj tc :: _) _ => ((getItem tc "index").getD (.num 0)).dictKey.isNone
  | .go _ (_ :: _) _ => false

/-! ## The shape decides the head -/

/-- The iteration over `tool_calls or []`, case by case. -/
theorem iter_harmless (usage : List Event) (finishReason calls : Option Json) :
    (match (orElse calls (.arr [])).iter with
      | .error e => Head.stop usage (some e)
      | .ok fragments => .go usage fragments finishReason).harmless = harmlessCalls calls := by
  match calls with
  | none => rfl
  | some .null => rfl
  | some (.bool true) => rfl
  | some (.bool false) => rfl
  | some (.num q) =>
    by_cases hq : q = 0
    · simp [orElse, Json.truthy, hq, Json.iter, Head.harmless, harmlessCalls]
    · simp [orElse, Json.truthy, hq, Json.iter, Head.harmless, harmlessCalls]
  | some (.str []) => rfl
  | some (.str (_ :: _)) => rfl
  | some (.obj []) => rfl
  | some (.obj (_ :: _)) => rfl
  | some (.arr []) => rfl
  | some (.arr (tc :: _)) => cases tc <;> rfl

theorem choiceHead_harmless (usage : List Event) (choice : List (Text × Json)) :
    (choiceHead usage choice).harmless =
      match getItem choice "delta" with
      | some (.obj delta) => harmlessCalls (getItem delta "tool_calls")
      | some d => !d.truthy
      | none => true := by
  unfold choiceHead
  match getItem choice "delta" with
  | none => rfl
  | some .null => rfl
  | some (.bool true) => rfl
  | some (.bool false) => rfl
  | some (.num q) =>
    by_cases hq : q = 0
    · simp [orElse, Json.truthy, hq, getItem, Json.iter, Head.harmless]
    · simp [orElse, Json.truthy, hq, Head.harmless]
  | some (.str []) => rfl
  | some (.str (_ :: _)) => rfl
  | some (.arr []) => rfl
  | some (.arr (_ :: _)) => rfl
  | some (.obj []) => rfl
  | some (.obj (item :: items)) =>
    exact iter_harmless _ _ (getItem (item :: items) "tool_calls")

theorem choicesHead_harmless (usage : List Event) (choices : Option Json) :
    (choicesHead usage choices).harmless = harmlessChoices choices := by
  -- falsy choices are harmless on either side of the usage-only test
  have hstop : ∀ first : Head, first.harmless = true →
      (if !usage.isEmpty && true then Head.stop usage none else first).harmless = true := by
    intro first hfirst
    split
    next => rfl
    next => exact hfirst
  have hmalformed : (Head.stop [] (some .malformed)).harmless = true := rfl
  unfold choicesHead
  match choices with
  | none => exact hstop _ hmalformed
  | some .null => exact hstop _ hmalformed
  | some (.bool true) => cases usage <;> rfl
  | some (.bool false) => exact hstop _ hmalformed
  | some (.num q) =>
    by_cases hq : q = 0
    · rw [hq]
      exact hstop _ hmalformed
    · simp [orElse, Json.truthy, hq, Json.first, hmalformed, harmlessChoices]
  | some (.str []) => exact hstop _ hmalformed
  | some (.str (_ :: _)) => cases usage <;> rfl
  | some (.obj []) => exact hstop _ hmalformed
  | some (.obj (_ :: _)) => cases usage <;> rfl
  | some (.arr []) => exact hstop _ hmalformed
  | some (.arr (.obj choice :: _)) => cases usage <;> exact choiceHead_harmless _ choice
  | some (.arr (.null :: _)) => cases usage <;> rfl
  | some (.arr (.bool _ :: _)) => cases usage <;> rfl
  | some (.arr (.num _ :: _)) => cases usage <;> rfl
  | some (.arr (.str _ :: _)) => cases usage <;> rfl
  | some (.arr (.arr _ :: _)) => cases usage <;> rfl

theorem chunkHead_harmless (payload : Option Json) :
    (chunkHead payload).harmless = Harmless payload := by
  match payload with
  | none => rfl
  | some .null => rfl
  | some (.bool _) => rfl
  | some (.num _) => rfl
  | some (.str _) => rfl
  | some (.arr _) => rfl
  | some (.obj _) => exact choicesHead_harmless _ _

/-! ## A harmless line passes -/

/-- A line with a harmless head merges nothing and raises nothing. -/
theorem dataLine_harmless {payload : Option Json} (h : Harmless payload = true) (p : Pending) :
    (dataLine payload p).pending = p ∧ (dataLine payload p).raises = false := by
  rw [← chunkHead_harmless] at h
  unfold dataLine
  cases hhead : chunkHead payload with
  | stop events exc =>
    rw [hhead] at h
    refine ⟨rfl, ?_⟩
    simpa [Head.harmless] using h
  | go events fragments finishReason =>
    rw [hhead] at h
    match fragments, h with
    | [], _ => exact ⟨rfl, rfl⟩
    | .obj tc :: rest, h =>
      have hkey : ((getItem tc "index").getD (.num 0)).dictKey = none := by
        simpa [Head.harmless] using h
      have hmerge : mergeCalls p (.obj tc :: rest) = (p, some .malformed) := by
        simp [mergeCalls, mergeCall, hkey]
      dsimp only
      rw [hmerge]
      exact ⟨rfl, rfl⟩

/-- The rest of the body is read as if the line were not there. -/
def Passes (line : Line) : Prop :=
  ∀ (p : Pending) (rest : List Line), ∃ events,
    readBody (line :: rest) p = (events :: (readBody rest p).1, (readBody rest p).2)

theorem passes_of_harmless {payload : Option Json} (h : Harmless payload = true) :
    Passes ⟨false, .data payload⟩ := by
  intro p rest
  obtain ⟨hpending, hraises⟩ := dataLine_harmless h p
  exact ⟨(dataLine payload p).events, by simp [readBody, hpending, hraises]⟩

/-- A line that passes can be put anywhere. -/
theorem readBody_insert {line : Line} (h : Passes line) :
    ∀ (pre post : List Line) (p : Pending),
      (readBody (pre ++ line :: post) p).2 = (readBody (pre ++ post) p).2 ∧
      (readBody (pre ++ line :: post) p).1.eraseIdx pre.length
        = (readBody (pre ++ post) p).1 := by
  intro pre post
  induction pre with
  | nil =>
    intro p
    obtain ⟨events, hline⟩ := h p post
    rw [List.nil_append, List.nil_append, hline]
    exact ⟨rfl, rfl⟩
  | cons first pre ih =>
    intro p
    rw [List.cons_append, List.cons_append, List.length_cons]
    unfold readBody
    split
    next => exact ⟨rfl, by simp⟩
    next =>
      -- what the first line leaves pending is the same in both bodies
      split
      next => exact ⟨(ih p).1, by rw [List.eraseIdx_cons_succ, (ih p).2]⟩
      next => exact ⟨rfl, by simp⟩
      next other _ =>
        dsimp only
        split
        next => exact ⟨rfl, by simp⟩
        next =>
          exact ⟨(ih _).1, by rw [List.eraseIdx_cons_succ, (ih _).2]⟩

/-! ## Any other line does not -/

/-- Merging only ever adds keys. -/
theorem Pending.modify_keys (p : Pending) (k : DictKey) (f : PendingCall → PendingCall) :
    (p.modify k f).map (·.1) = p.map (·.1) := by
  unfold Pending.modify
  rw [List.map_map]
  apply List.map_congr_left
  intro e _
  by_cases hk : e.1 = k
  · simp [hk]
  · simp [hk]

theorem mergeFields_keys (p : Pending) (k : DictKey) (tc : List (Text × Json)) :
    (mergeFields p k tc).1.map (·.1) = p.map (·.1) := by
  have hid : ∀ id : Json, (if id.truthy then p.modify k fun c => { c with id := id } else p).map
      (·.1) = p.map (·.1) := by
    intro id
    split
    next => exact p.modify_keys k _
    next => rfl
  unfold mergeFields
  dsimp only
  split
  next =>
    split
    next => exact hid _
    next =>
      split
      next => rw [Pending.modify_keys, hid]
      next => rw [Pending.modify_keys, Pending.modify_keys, hid]
  next => exact hid _

theorem Pending.ensure_keys (p : Pending) (k : DictKey) :
    ∃ more, (p.ensure k).map (·.1) = p.map (·.1) ++ more := by
  unfold Pending.ensure
  split
  next => exact ⟨[], by simp⟩
  next => exact ⟨[k], by simp⟩

theorem mergeCall_keys (p : Pending) (tc : Json) :
    ∃ more, (mergeCall p tc).1.map (·.1) = p.map (·.1) ++ more := by
  unfold mergeCall
  split
  next tc =>
    split
    next => exact ⟨[], by simp⟩
    next k _ =>
      rw [mergeFields_keys]
      exact p.ensure_keys k
  next => exact ⟨[], by simp⟩

theorem mergeCalls_keys (p : Pending) (calls : List Json) :
    ∃ more, (mergeCalls p calls).1.map (·.1) = p.map (·.1) ++ more := by
  induction calls generalizing p with
  | nil => exact ⟨[], by simp [mergeCalls]⟩
  | cons tc rest ih =>
    obtain ⟨more, hmore⟩ := mergeCall_keys p tc
    unfold mergeCalls
    split
    next p' heq =>
      rw [heq] at hmore
      obtain ⟨more', hmore'⟩ := ih p'
      exact ⟨more ++ more', by rw [hmore', hmore, List.append_assoc]⟩
    next p' e heq =>
      rw [heq] at hmore
      exact ⟨more, hmore⟩

/-- A chunk that only finishes, as a model sends it after its tool calls. -/
def finishLine : Line where
  kind := .data (some (.obj [("choices".toList, .arr [.obj
    [("finish_reason".toList, .str "tool_calls".toList)]])]))

/-- The fragment of a tool call that has nothing but its index. -/
def bareFragment : Json := .obj [("index".toList, .num 0)]

/-- A chunk with that fragment. -/
def fragmentLine : Line where
  kind := .data (some (.obj [("choices".toList, .arr [.obj [("delta".toList, .obj
    [("tool_calls".toList, .arr [bareFragment])])]])]))

/-- What the finish reason of `finishLine` yields. -/
def finished (p : Pending) : List Event := finishEvents (some (.str "tool_calls".toList)) p

theorem readBody_finishLine (p : Pending) : readBody [finishLine] p = ([finished p], .exhausted) :=
  rfl

theorem readBody_fragmentLine (p : Pending) :
    readBody [fragmentLine, finishLine] p
      = ([[], finished (mergeCalls p [bareFragment]).1], .exhausted) := rfl

theorem finished_sortable {p : Pending} (hne : p ≠ []) (h : sortable (p.map (·.1)) = true) :
    finished p ≠ [] := by
  have hempty : p.isEmpty = false := by simpa using hne
  unfold finished finishEvents assemble sortedKeys
  rw [h, hempty]
  exact List.cons_ne_nil _ _

theorem finished_not_sortable {p : Pending} (h : sortable (p.map (·.1)) = false) :
    finished p = [] := by
  unfold finished finishEvents assemble sortedKeys
  rw [h]
  split
  next => rfl
  next => rfl

theorem finished_bareFragment : finished (mergeCalls [] [bareFragment]).1 ≠ [] :=
  List.cons_ne_nil _ _

/-- A line that raises, or leaves something pending where nothing was, can be
told by the end of the body or by a later line. -/
theorem not_tolerated {payload : Option Json}
    (h : (dataLine payload []).raises = true ∨ (dataLine payload []).pending ≠ []) :
    ¬ Tolerated payload := by
  intro htol
  cases hr : (dataLine payload []).raises with
  | true =>
    have hend := (htol [] []).1
    simp [readBody, hr] at hend
  | false =>
    have hne : (dataLine payload []).pending ≠ [] := by
      rcases h with h | h
      · rw [hr] at h
        exact absurd h (by simp)
      · exact h
    have hread : ∀ post, (readBody ([] ++ ⟨false, .data payload⟩ :: post) []).1.eraseIdx 0
        = (readBody post (dataLine payload []).pending).1 := by
      intro post
      simp [readBody, hr]
    cases hs : sortable ((dataLine payload []).pending.map (·.1)) with
    | true =>
      -- the finish line now yields tool calls the other lines do not have
      have hevents := (htol [] [finishLine]).2
      rw [List.length_nil, hread, List.nil_append, readBody_finishLine, readBody_finishLine]
        at hevents
      have hnil : finished (dataLine payload []).pending = finished [] :=
        (List.cons.inj hevents).1
      exact finished_sortable hne hs hnil
    | false =>
      -- keys of different types: the tool call of the other lines is never yielded
      have hevents := (htol [] [fragmentLine, finishLine]).2
      rw [List.length_nil, hread, List.nil_append, readBody_fragmentLine, readBody_fragmentLine]
        at hevents
      have hsame := (List.cons.inj (List.cons.inj hevents).2).1
      obtain ⟨more, hmore⟩ := mergeCalls_keys (dataLine payload []).pending [bareFragment]
      have hmixed : sortable ((mergeCalls (dataLine payload []).pending [bareFragment]).1.map (·.1))
          = false := by
        cases hk : sortable ((mergeCalls (dataLine payload []).pending [bareFragment]).1.map
            (·.1)) with
        | false => rfl
        | true =>
          rw [hmore] at hk
          rw [sortable_of_append hk] at hs
          exact absurd hs (by simp)
      rw [finished_not_sortable hmixed] at hsame
      exact finished_bareFragment hsame.symm

/-- A first fragment that is a dict with a hashable index leaves its entry behind. -/
theorem mergeCalls_ne_nil {tc : List (Text × Json)} {k : DictKey}
    (hk : ((getItem tc "index").getD (.num 0)).dictKey = some k) (rest : List Json) :
    (mergeCalls [] (.obj tc :: rest)).1 ≠ [] := by
  -- the entry is there before the first thing that can raise
  have hcall : (mergeCall [] (.obj tc)).1.map (·.1) = [k] := by
    simp only [mergeCall, hk, mergeFields_keys]
    rfl
  have hgrown : ∀ p : Pending, p.map (·.1) = [k] → (mergeCalls p rest).1 ≠ [] := by
    intro p hp hnil
    obtain ⟨more, hmore⟩ := mergeCalls_keys p rest
    rw [hnil, hp] at hmore
    exact absurd hmore (by simp)
  unfold mergeCalls
  split
  next p' heq =>
    rw [heq] at hcall
    exact hgrown p' hcall
  next p' e heq =>
    rw [heq] at hcall
    intro hnil
    rw [show p' = [] from hnil] at hcall
    exact absurd hcall (by simp)

/-- A line whose shape is not harmless raises or merges. -/
theorem dataLine_not_harmless {payload : Option Json} (h : Harmless payload = false) :
    (dataLine payload []).raises = true ∨ (dataLine payload []).pending ≠ [] := by
  rw [← chunkHead_harmless] at h
  unfold dataLine
  cases hhead : chunkHead payload with
  | stop events exc =>
    rw [hhead] at h
    left
    simpa [Head.harmless] using h
  | go events fragments finishReason =>
    rw [hhead] at h
    match fragments, h with
    | .obj tc :: rest, h =>
      right
      obtain ⟨k, hk⟩ := Option.isSome_iff_exists.mp (by simpa [Head.harmless] using h)
      have hmerged := mergeCalls_ne_nil hk rest
      dsimp only
      split
      next p' e heq => rw [heq] at hmerged; exact hmerged
      next p' heq => rw [heq] at hmerged; exact hmerged
    | .null :: _, _ => exact Or.inl rfl
    | .bool _ :: _, _ => exact Or.inl rfl
    | .num _ :: _, _ => exact Or.inl rfl
    | .str _ :: _, _ => exact Or.inl rfl
    | .arr _ :: _, _ => exact Or.inl rfl

/-- The parser tolerates a `data:` line exactly when its shape is harmless. -/
theorem tolerated_iff (payload : Option Json) : Tolerated payload ↔ Harmless payload = true := by
  refine ⟨fun h => ?_, fun h pre post => readBody_insert (passes_of_harmless h) pre post []⟩
  cases hh : Harmless payload with
  | true => rfl
  | false => exact absurd h (not_tolerated (dataLine_not_harmless hh))

/-- `data: []` is JSON of another type, and ends the call with an exception. -/
theorem emptyList_not_tolerated : ¬ Tolerated (some (.arr [])) := by
  intro h
  have hend := (h [] []).1
  exact absurd hend (by decide)

end Eidetic.Upstream
