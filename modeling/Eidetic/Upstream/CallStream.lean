import Eidetic.Lib.Pieces
import Eidetic.Upstream.Chunk

/-!
# The text of a call over its attempts

`call_stream` makes up to `MAX_RETRIES + 1` attempts, and what an attempt has
yielded before a transport error has already reached the caller when the next
one starts from the beginning. So the caller reads the text of one response
only when no other attempt of the call has delivered any
(`noSplice_iff`); otherwise the texts stand one after the other, and read like
one response only if the last one, cut before its end, happens to go on that way.

An attempt has a text, as far as its body is read, and `attempt_last` says
whether it ends the call or is retried; the attempts made are the first ones up
to that. So the text of the call is that of these attempts joined
(`callStream_text`), and the text of an attempt is a prefix of its response's
content, all of it when it is not cut (`Attempt.text_prefix`,
`Attempt.text_eq`). What is left is when a joined text is a prefix of one
content: when one attempt at most has any, or the last one is `Foretold` by
those before it.
-/

namespace Eidetic.Upstream

open Eidetic.Lib Eidetic.Py

/-- What an endpoint does with a request: it fails before the status line, or
answers, with a body that a transport error may break after its lines. -/
inductive Reply
  | refused
  | response (status : Nat) (lines : List Line) (broken : Bool)

/-- One attempt: whether `pick_chat_url` chose the primary, and the reply. -/
structure Attempt where
  primary : Bool
  reply : Reply

/-- How a call ends: with `record_success`, by giving up on an error status,
at the connection's time limit, or by an exception. -/
inductive CallEnd
  | success
  | gaveUp
  | timeLimit
  | raised
  | noAttempt
deriving DecidableEq, Repr

/-- How an attempt ends. -/
inductive AttemptEnd
  | retry
  | ended (ending : CallEnd)
deriving DecidableEq, Repr

/-- An error status: the primary and the transient ones are retried. -/
def statusEnd (a : Attempt) (status : Nat) (last : Bool) : AttemptEnd :=
  -- any error of the primary is the endpoint's fault, also a 4xx
  if a.primary && !last then .retry
  else if (status = 429 || status = 503) && !last then .retry
  else .ended .gaveUp

/-- The transport-error handler. -/
def transportEnd (last : Bool) : AttemptEnd := if last then .ended .raised else .retry

/-- The body of the loop over the attempts. -/
def attempt (a : Attempt) (last : Bool) : List Event × AttemptEnd :=
  match a.reply with
  | .refused => ([], transportEnd last)
  | .response status lines broken =>
    if status ≠ 200 then ([], statusEnd a status last)
    else
      let body := readBody lines []
      (body.1.flatten,
        match body.2 with
        | .done => .ended .success
        -- lines that end without `[DONE]` are a success all the same
        | .exhausted => if broken then transportEnd last else .ended .success
        | .late => .ended .timeLimit
        -- an `AttributeError` is none of the caught transport errors
        | .raised => .ended .raised)

structure CallResult where
  events : List Event
  ending : CallEnd

/-- The loop over the attempts; `attempt < MAX_RETRIES` says that one is left. -/
def callStream : List Attempt → CallResult
  | [] => ⟨[], .noAttempt⟩
  | a :: rest =>
    match attempt a rest.isEmpty with
    | (events, .ended ending) => ⟨events, ending⟩
    -- what has been yielded stays yielded
    | (events, .retry) => ⟨events ++ (callStream rest).events, (callStream rest).ending⟩

def CallResult.text (r : CallResult) : Text := textOf r.events

/-! ## Attempts and their contents -/

/-- The attempts that are made. -/
def reached : List Attempt → List Attempt
  | [] => []
  | a :: rest =>
    match (attempt a rest.isEmpty).2 with
    | .ended _ => [a]
    | .retry => a :: reached rest

/-- The text that an attempt delivers. -/
def Attempt.text (a : Attempt) : Text := textOf (attempt a true).1

/-- The text of a payload. -/
def payloadText (payload : Option Json) : Text :=
  match chunkHead payload with
  | .stop events _ => textOf events
  | .go events _ _ => textOf events

/-- The text of the lines up to `[DONE]`, whether or not they are read. -/
def content : List Line → Text
  | [] => []
  | line :: rest =>
    match line.kind with
    | .other => content rest
    | .done => []
    | .data payload => payloadText payload ++ content rest

/-- The content of the response: an error status has none. -/
def Attempt.content (a : Attempt) : Text :=
  match a.reply with
  | .refused => []
  | .response status lines _ => if status ≠ 200 then [] else Upstream.content lines

/-- The body is left before its end, at the time limit or by an exception. -/
def Attempt.cut (a : Attempt) : Bool :=
  match a.reply with
  | .refused => false
  | .response status lines _ =>
    status = 200 && ((readBody lines []).2 = .late || (readBody lines []).2 = .raised)

/-- The text of the call is a prefix of the content of one response, and all
of it after a success; without a success there may be none. -/
def NoSplice (attempts : List Attempt) : Prop :=
  ((callStream attempts).text = [] ∧ (callStream attempts).ending ≠ .success) ∨
    ∃ a ∈ reached attempts, (callStream attempts).text <+: a.content ∧
      ((callStream attempts).ending = .success → (callStream attempts).text = a.content)

/-- At most one of the attempts made delivers any text. -/
def OneVoice (attempts : List Attempt) : Prop :=
  (substantial ((reached attempts).map Attempt.text)).length ≤ 1

/-- The last attempt is cut, and its response would have begun with the texts
of the attempts before it and its own up to the cut. -/
def Foretold (attempts : List Attempt) : Prop :=
  ∃ earlier last, reached attempts = earlier ++ [last] ∧ last.cut = true ∧
    (earlier.map Attempt.text).flatten ++ last.text <+: last.content

/-! ## The text of one body -/

@[simp] theorem textOf_append (xs ys : List Event) : textOf (xs ++ ys) = textOf xs ++ textOf ys :=
  List.flatMap_append

theorem textOf_finishEvents (finishReason : Option Json) (p : Pending) :
    textOf (finishEvents finishReason p) = [] := by
  unfold finishEvents
  split
  next =>
    split
    next => rfl
    next => rfl
  next => rfl

/-- The text of a line does not depend on what is pending. -/
theorem textOf_dataLine (payload : Option Json) (p : Pending) :
    textOf (dataLine payload p).events = payloadText payload := by
  unfold dataLine payloadText
  cases chunkHead payload with
  | stop events exc => rfl
  | go events fragments finishReason =>
    dsimp only
    split
    next => rfl
    next => rw [textOf_append, textOf_finishEvents, List.append_nil]

/-- What a body delivers is a prefix of its content, and all of it when it is
read to the end. -/
theorem readBody_text (lines : List Line) (p : Pending) :
    textOf (readBody lines p).1.flatten <+: content lines ∧
      ((readBody lines p).2 = .done ∨ (readBody lines p).2 = .exhausted →
        textOf (readBody lines p).1.flatten = content lines) := by
  induction lines generalizing p with
  | nil => exact ⟨List.prefix_refl _, fun _ => rfl⟩
  | cons line rest ih =>
    unfold readBody content
    by_cases hlate : line.late = true
    · rw [if_pos hlate]
      exact ⟨List.nil_prefix, by simp⟩
    · rw [if_neg hlate]
      cases line.kind with
      | other => exact ih p
      | done => exact ⟨List.prefix_refl _, fun _ => rfl⟩
      | data payload =>
        dsimp only
        split
        next =>
          refine ⟨?_, by simp⟩
          rw [List.flatten_singleton, textOf_dataLine]
          exact List.prefix_append _ _
        next =>
          obtain ⟨hpre, hall⟩ := ih (dataLine payload p).pending
          rw [List.flatten_cons, textOf_append, textOf_dataLine]
          exact ⟨(List.prefix_append_right_inj _).mpr hpre, fun h => by rw [hall h]⟩

/-! ## The text of an attempt -/

theorem attempt_events (a : Attempt) (last : Bool) : (attempt a last).1 = (attempt a true).1 := by
  unfold attempt
  cases a.reply with
  | refused => rfl
  | response status lines broken =>
    dsimp only
    split
    next => rfl
    next => rfl

theorem Attempt.text_prefix (a : Attempt) : a.text <+: a.content := by
  unfold Attempt.text Attempt.content attempt
  cases a.reply with
  | refused => exact List.prefix_refl _
  | response status lines broken =>
    dsimp only
    split
    next => exact List.prefix_refl _
    next => exact (readBody_text lines []).1

/-- An attempt that is not cut delivers all there is. -/
theorem Attempt.text_eq {a : Attempt} (h : a.cut = false) : a.text = a.content := by
  unfold Attempt.cut at h
  unfold Attempt.text Attempt.content attempt
  cases hreply : a.reply with
  | refused => rfl
  | response status lines broken =>
    rw [hreply] at h
    dsimp only at h ⊢
    split
    next => rfl
    next hstatus =>
      refine (readBody_text lines []).2 ?_
      rw [not_not.mp hstatus] at h
      revert h
      cases (readBody lines []).2 with
      | done => exact fun _ => Or.inl rfl
      | exhausted => exact fun _ => Or.inr rfl
      | late => exact fun h => absurd h (by simp)
      | raised => exact fun h => absurd h (by simp)

/-- What is cut is neither retried nor a success. -/
theorem Attempt.cut_end {a : Attempt} (h : a.cut = true) (last : Bool) :
    ∃ ending, (attempt a last).2 = .ended ending ∧ ending ≠ .success := by
  unfold Attempt.cut at h
  unfold attempt
  cases hreply : a.reply with
  | refused =>
    rw [hreply] at h
    exact absurd h (by simp)
  | response status lines broken =>
    rw [hreply] at h
    simp only [Bool.and_eq_true, Bool.or_eq_true, decide_eq_true_eq] at h
    obtain ⟨hstatus, hend⟩ := h
    dsimp only
    rw [if_neg (not_not.mpr hstatus)]
    rcases hend with hend | hend
    · exact ⟨.timeLimit, by rw [hend], by decide⟩
    · exact ⟨.raised, by rw [hend], by decide⟩

theorem statusEnd_last (a : Attempt) (status : Nat) : statusEnd a status true = .ended .gaveUp := by
  simp [statusEnd]

/-- The last attempt is not retried. -/
theorem attempt_last (a : Attempt) : (attempt a true).2 ≠ .retry := by
  unfold attempt
  cases a.reply with
  | refused => exact AttemptEnd.noConfusion
  | response status lines broken =>
    dsimp only
    split
    next =>
      rw [statusEnd_last]
      exact AttemptEnd.noConfusion
    next =>
      dsimp only
      split
      next => exact AttemptEnd.noConfusion
      next =>
        split
        next => exact AttemptEnd.noConfusion
        next => exact AttemptEnd.noConfusion
      next => exact AttemptEnd.noConfusion
      next => exact AttemptEnd.noConfusion

/-! ## The text of the call -/

theorem callStream_ended {a : Attempt} {rest : List Attempt} {ending : CallEnd}
    (h : (attempt a rest.isEmpty).2 = .ended ending) :
    callStream (a :: rest) = ⟨(attempt a rest.isEmpty).1, ending⟩ ∧
      reached (a :: rest) = [a] := by
  refine ⟨?_, by rw [reached, h]⟩
  rw [callStream]
  split
  next heq =>
    rw [heq] at h ⊢
    rw [show _ = ending from AttemptEnd.ended.inj h]
  next heq =>
    rw [heq] at h
    exact AttemptEnd.noConfusion h

theorem callStream_retry {a : Attempt} {rest : List Attempt}
    (h : (attempt a rest.isEmpty).2 = .retry) :
    callStream (a :: rest) =
        ⟨(attempt a rest.isEmpty).1 ++ (callStream rest).events, (callStream rest).ending⟩ ∧
      reached (a :: rest) = a :: reached rest := by
  refine ⟨?_, by rw [reached, h]⟩
  rw [callStream]
  split
  next heq =>
    rw [heq] at h
    exact AttemptEnd.noConfusion h
  next heq => rw [heq]

/-- The texts of the attempts made, one after the other. -/
theorem callStream_text (attempts : List Attempt) :
    (callStream attempts).text = ((reached attempts).map Attempt.text).flatten := by
  induction attempts with
  | nil => rfl
  | cons a rest ih =>
    have htext : textOf (attempt a rest.isEmpty).1 = a.text := by
      rw [attempt_events]
      rfl
    cases hend : (attempt a rest.isEmpty).2 with
    | ended ending =>
      rw [(callStream_ended hend).1, (callStream_ended hend).2, List.map_singleton,
        List.flatten_singleton]
      exact htext
    | retry =>
      rw [(callStream_retry hend).1, (callStream_retry hend).2, List.map_cons, List.flatten_cons,
        ← ih, ← htext]
      exact textOf_append _ _

/-- The attempts made are those that are retried and the one that ends the call. -/
theorem reached_last {attempts : List Attempt} (hne : attempts ≠ []) :
    ∃ earlier last, reached attempts = earlier ++ [last] ∧ (∀ a ∈ earlier, a.cut = false) ∧
      ((callStream attempts).ending = .success → last.cut = false) := by
  induction attempts with
  | nil => exact absurd rfl hne
  | cons a rest ih =>
    cases hend : (attempt a rest.isEmpty).2 with
    | ended ending =>
      obtain ⟨hcall, hreached⟩ := callStream_ended hend
      refine ⟨[], a, hreached, fun _ ha => absurd ha List.not_mem_nil, ?_⟩
      intro hsuccess
      rw [hcall] at hsuccess
      by_contra hcut
      obtain ⟨ending', hend', hne'⟩ := Attempt.cut_end (Bool.not_eq_false _ ▸ hcut) rest.isEmpty
      rw [hend] at hend'
      exact hne' (AttemptEnd.ended.inj hend' ▸ hsuccess)
    | retry =>
      obtain ⟨hcall, hreached⟩ := callStream_retry hend
      -- a retry means that an attempt is left
      have hrest : rest ≠ [] := by
        intro hnil
        rw [hnil] at hend
        exact attempt_last a hend
      have hcut : a.cut = false := by
        by_contra hcut
        obtain ⟨ending, hend', _⟩ := Attempt.cut_end (Bool.not_eq_false _ ▸ hcut) rest.isEmpty
        rw [hend] at hend'
        exact AttemptEnd.noConfusion hend'
      obtain ⟨earlier, last, hsplit, hearlier, hlast⟩ := ih hrest
      refine ⟨a :: earlier, last, by rw [hreached, hsplit]; rfl, ?_, by rw [hcall]; exact hlast⟩
      intro b hb
      rcases List.mem_cons.mp hb with hb | hb
      · rw [hb]
        exact hcut
      · exact hearlier b hb

/-- One voice is enough: the whole text is the text of one attempt. -/
theorem noSplice_of_oneVoice {attempts : List Attempt} (h : OneVoice attempts) :
    NoSplice attempts := by
  by_cases hne : attempts = []
  · left
    rw [hne]
    exact ⟨rfl, by decide⟩
  · right
    obtain ⟨earlier, last, hreached, hearlier, hlast⟩ := reached_last hne
    have hmade : (reached attempts).map Attempt.text ≠ [] := by
      rw [hreached]
      simp
    obtain ⟨a, ha, htext⟩ := List.mem_map.mp (flatten_mem_of_substantial hmade h)
    rw [← callStream_text] at htext
    refine ⟨a, ha, by rw [← htext]; exact a.text_prefix, ?_⟩
    intro hsuccess
    rw [← htext]
    refine Attempt.text_eq ?_
    rw [hreached] at ha
    rcases List.mem_append.mp ha with ha | ha
    · exact hearlier a ha
    · rw [List.mem_singleton.mp ha]
      exact hlast hsuccess

/-- The text of a call is that of one response exactly when one attempt at
most delivers text, or a cut last response would have gone on like the others. -/
theorem noSplice_iff (attempts : List Attempt) :
    NoSplice attempts ↔ OneVoice attempts ∨ Foretold attempts := by
  constructor
  · intro h
    rcases h with ⟨hnil, _⟩ | ⟨a, ha, hpre, _⟩
    · left
      rw [callStream_text] at hnil
      unfold OneVoice
      rw [substantial_eq_nil hnil]
      exact Nat.zero_le 1
    · cases hcut : a.cut with
      | false =>
        -- all that the response says has been delivered: there is no room for more
        left
        rw [callStream_text, ← Attempt.text_eq hcut] at hpre
        exact substantial_of_flatten_length_le (List.mem_map_of_mem ha) hpre.length_le
      | true =>
        -- only the last attempt can be cut
        right
        have hne : attempts ≠ [] := by
          intro hnil
          rw [hnil] at ha
          exact absurd ha List.not_mem_nil
        obtain ⟨earlier, last, hreached, hearlier, _⟩ := reached_last hne
        have hlast : a = last := by
          rw [hreached] at ha
          rcases List.mem_append.mp ha with ha | ha
          · rw [hearlier a ha] at hcut
            exact absurd hcut (by simp)
          · exact List.mem_singleton.mp ha
        rw [callStream_text, hreached, List.map_append, List.flatten_append] at hpre
        rw [hlast] at hpre hcut
        exact ⟨earlier, last, hreached, hcut, by simpa using hpre⟩
  · intro h
    rcases h with hone | ⟨earlier, last, hreached, hcut, hpre⟩
    · exact noSplice_of_oneVoice hone
    · right
      refine ⟨last, by rw [hreached]; simp, ?_, ?_⟩
      · rw [callStream_text, hreached]
        simpa using hpre
      · -- a cut attempt ends the call, and not with a success
        intro hsuccess
        have hne : attempts ≠ [] := by
          intro hnil
          rw [hnil] at hsuccess
          exact absurd hsuccess (by decide)
        obtain ⟨earlier', last', hreached', _, hlast⟩ := reached_last hne
        rw [hreached] at hreached'
        have hsame : last = last' := by simpa using (List.append_inj' hreached' rfl).2
        rw [hsame, hlast hsuccess] at hcut
        exact absurd hcut (by simp)

/-- A chunk with a text. -/
def contentLine (s : String) : Line where
  kind := .data (some (.obj [("choices".toList, .arr [.obj [("delta".toList, .obj
    [("content".toList, .str s.toList)])]])]))

/-- The connection breaks after "Hel", and the retry succeeds. -/
def brokenThenWhole : List Attempt :=
  [⟨false, .response 200 [contentLine "Hel"] true⟩,
    ⟨false, .response 200 [contentLine "Hello", ⟨false, .done⟩] false⟩]

/-- The caller reads "HelHello". -/
theorem brokenThenWhole_spliced : ¬ NoSplice brokenThenWhole := by
  intro h
  rcases h with ⟨hnil, _⟩ | ⟨a, ha, hpre, _⟩
  · exact absurd hnil (by decide)
  · rcases List.mem_cons.mp ha with ha | ha
    · rw [ha] at hpre
      exact absurd hpre (by decide)
    · rw [List.mem_singleton.mp ha] at hpre
      exact absurd hpre (by decide)

end Eidetic.Upstream
