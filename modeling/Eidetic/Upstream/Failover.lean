import Eidetic.Upstream.Breaker
import Eidetic.Upstream.CallStream
import Eidetic.Upstream.Endpoint

/-!
# Faults of the endpoint and faults of the model

What `call` and `call_stream` do with an outcome: whom they tell of it, the
model's circuit breaker or the endpoint's health cache, and whether another
attempt follows. Both ask which endpoint it was only when the status or the
connection fails. A 200 of the primary with a body that is not JSON or has no
content is the model's failure for `call` and a success for `call_stream`, and
a demotion that is gone before the next attempt sends it to the primary again.
Otherwise the two kinds of faults are kept apart (`apart_iff`).

The two functions have the same loop around different bodies. So the loop is
`attempts`, over a body that gives a `Reaction`, and `Reacts` is what is assumed
of a body: how it reacts to an answer and to a fault of the primary.
`Reacts.keptApart_iff` is the result for any such body, by induction on the
attempts, and it is used twice (`callReacts`, `streamReacts`). A fault demotes
the primary, and the next attempt goes to NIM when its pick reads that, or
probes and finds the primary down; when it does neither (`Unpicked`), the fault
is retried where it came from.

What a 200 is for `call` depends on whether there is anything to extract from
its body, which `strip_extract` and `extract_of_not_obj` describe for all JSON.
-/

namespace Eidetic.Upstream

open Eidetic.Lib Eidetic.Py
open Eidetic.Memory (Answer)

/-! ## One attempt -/

/-- What an attempt does: the calls of the circuit breaker, whether it demotes
the primary, and whether the loop goes on. -/
structure Reaction where
  records : List BreakerOp := []
  demotes : Bool := false
  retries : Bool := false
deriving DecidableEq

/-- `value.strip()`, if the value is a string that is not blank. -/
def nonBlank : Option Json → Option Text
  | some (.str s) => if (strip s).isEmpty then none else some (strip s)
  | _ => none

/-- The text of the first part of a content that is a list. -/
def partText : Option Json → Option Text
  | some (.arr (.obj part :: _)) => nonBlank (getItem part "text")
  | _ => none

/-- `_extract` up to its handler. -/
def extractBody (data : Json) : Except Exc (Option Text × Option Json) := do
  let choices ← getAttr data "choices"
  match choices with
  | some (.arr (first :: _)) =>
    let message := (← getAttr first "message").getD (.obj [])
    let toolCalls := orElse (← getAttr message "tool_calls") .null
    if toolCalls.truthy then return (none, some toolCalls)
    let content ← getAttr message "content"
    if let some text := nonBlank content then return (some text, none)
    if let some text := partText content then return (some text, none)
    let delta := (← getAttr first "delta").getD (.obj [])
    if let some text := nonBlank (← getAttr delta "content") then return (some text, none)
    return (nonBlank (← getAttr data "text"), none)
  | _ => return (nonBlank (← getAttr data "text"), none)

/-- `_extract`: the content and the tool calls. -/
def extract (data : Json) : Option Text × Option Json :=
  match extractBody data with
  | .ok result => result
  | .error _ => (none, none)

/-- What an endpoint does with a request of `call`: it fails below HTTP, or
answers, with `none` for a body that is not JSON. -/
inductive CallReply
  | refused
  | response (status : Nat) (body : Option Json)

/-- The body of the loop of `call`. -/
def callAttempt (primary : Bool) : CallReply → Reaction
  | .refused =>
    if primary then { demotes := true, retries := true }
    else { records := [.recordFailure], retries := true }
  | .response status body =>
    if status ≠ 200 then
      if primary then { demotes := true, retries := true }
      else if 500 ≤ status then { records := [.recordFailure], retries := true }
      else {}
    else
      match body with
      -- the handler of unexpected exceptions does not ask for the endpoint
      | none => { records := [.recordFailure], retries := true }
      | some (.obj items) =>
        match extract (.obj items) with
        | (_, some _) => { records := [.recordSuccess] }
        | (some content, none) =>
          if (strip content).isEmpty then { records := [.recordFailure] }
          else { records := [.recordSuccess] }
        | (none, none) => { records := [.recordFailure] }
      -- `data.get("usage")`
      | some _ => { records := [.recordFailure], retries := true }

/-- The transport-error handler of `call_stream`. -/
def brokenStream (primary last : Bool) : Reaction :=
  if last then { records := if primary then [] else [.recordFailure], demotes := primary }
  else { demotes := primary, retries := true }

/-- The body of the loop of `call_stream`. -/
def streamAttempt (primary last : Bool) : Reply → Reaction
  | .refused => brokenStream primary last
  | .response status lines broken =>
    if status ≠ 200 then
      if primary && !last then { demotes := true, retries := true }
      else if (status = 429 || status = 503) && !last then { retries := true }
      else { records := if primary then [] else [.recordFailure], demotes := primary }
    else
      match (readBody lines []).2 with
      | .done => { records := [.recordSuccess] }
      | .exhausted => if broken then brokenStream primary last else { records := [.recordSuccess] }
      | .late | .raised => {}

/-! ## The loop -/

/-- What one attempt meets: in `pick_chat_url`, at the endpoint, in
`mark_primary_unhealthy`, and the time it takes and that until the next one. -/
structure AttemptInput (ρ : Type) where
  pick : PickInput
  reply : ρ
  mark : Answer
  took : Nat := 0
  slept : Nat := 0

/-- An attempt that has been made, and whether another one was left. -/
structure AttemptLog (ρ : Type) where
  url : Text
  reply : ρ
  reaction : Reaction
  more : Bool

def HealthCache.pass (s : HealthCache) (time : Nat) : HealthCache := { s with now := s.now + time }

section Loop

variable {ρ : Type} (react : Bool → Bool → ρ → Reaction) (cfg : EndpointConfig) (process : Nat)

/-- What the attempt does. -/
def reactionTo (s : HealthCache) (i : AttemptInput ρ) (last : Bool) : Reaction :=
  react (isPrimary cfg (pickChatUrl cfg s process i.pick).1) last i.reply

/-- The health cache when the next attempt starts. -/
def cacheAfter (s : HealthCache) (i : AttemptInput ρ) (last : Bool) : HealthCache :=
  let s' := (pickChatUrl cfg s process i.pick).2.pass i.took
  if (reactionTo react cfg process s i last).demotes then
    (markPrimaryUnhealthy cfg s' process i.mark).pass i.slept
  else s'.pass i.slept

/-- `for attempt in range(MAX_RETRIES + 1)`, with an input for each attempt. -/
def attempts : HealthCache → List (AttemptInput ρ) → List (AttemptLog ρ)
  | _, [] => []
  | s, i :: rest =>
    ⟨(pickChatUrl cfg s process i.pick).1, i.reply, reactionTo react cfg process s i rest.isEmpty,
        !rest.isEmpty⟩ ::
      if (reactionTo react cfg process s i rest.isEmpty).retries then
        attempts (cacheAfter react cfg process s i rest.isEmpty) rest
      else []

end Loop

/-! ## Kept apart -/

/-- An outcome of the primary is not recorded as a failure of the model, and a
fault demotes it and is retried against NIM while attempts remain. -/
def AttemptLog.Apart {ρ : Type} (cfg : EndpointConfig) (fault : ρ → Bool) (a : AttemptLog ρ)
    (after : List (AttemptLog ρ)) : Prop :=
  isPrimary cfg a.url = true →
    .recordFailure ∉ a.reaction.records ∧
      (fault a.reply = true → a.reaction.demotes = true ∧
        (a.more = true → ∃ next ∈ after.head?, next.url = cfg.nimUrl))

/-- Faults of the endpoint and of the model are kept apart in all attempts. -/
def KeptApart {ρ : Type} (cfg : EndpointConfig) (fault : ρ → Bool) : List (AttemptLog ρ) → Prop
  | [] => True
  | a :: after => a.Apart cfg fault after ∧ KeptApart cfg fault after

/-- A status or a connection fails. -/
def CallReply.unanswered : CallReply → Bool
  | .refused => true
  | .response status _ => status ≠ 200

/-- A 200 that is not JSON or has neither a content nor tool calls is a fault too. -/
def CallReply.fault : CallReply → Bool
  | .refused => true
  | .response status body =>
    status ≠ 200 || body.all fun data => (extract data).1.isNone && (extract data).2.isNone

/-- A content or tool calls. -/
def Event.delivers : Event → Bool
  | .content _ | .toolCalls _ => true
  | .usage _ | .budgetExceeded => false

/-- A status or a connection fails, at the start or among the lines. -/
def Reply.unanswered : Reply → Bool
  | .refused => true
  | .response status lines broken =>
    status ≠ 200 || (broken && (readBody lines []).2 == .exhausted)

/-- A 200 that is left or read to its end with neither a content nor tool calls
is a fault too; what is cut at the time limit is not. -/
def Reply.fault : Reply → Bool
  | .refused => true
  | .response status lines broken =>
    status ≠ 200 || (broken && (readBody lines []).2 == .exhausted) ||
      ((readBody lines []).2 != .late && !(readBody lines []).1.flatten.any Event.delivers)

/-- The verdict that a pick reads is not a healthy one, and if there is none its
probe fails. -/
def Unpicked (cfg : EndpointConfig) (s : HealthCache) (process : Nat) (i : PickInput) : Prop :=
  getCached cfg s process i.reached ≠ some true ∧
    (getCached cfg s process i.reached = none → i.probe = false)

section Loop

variable {ρ : Type} (react : Bool → Bool → ρ → Reaction) (fault unanswered : ρ → Bool)
  (cfg : EndpointConfig) (process : Nat)

/-- A fault of the primary is a status or a connection that fails, and the next
attempt finds it demoted. -/
def AttemptInput.Contained (s : HealthCache) (i : AttemptInput ρ) (rest : List (AttemptInput ρ)) :
    Prop :=
  isPrimary cfg (pickChatUrl cfg s process i.pick).1 = true → fault i.reply = true →
    unanswered i.reply = true ∧
      ∀ next ∈ rest.head?, cfg.primaryUrl = cfg.nimUrl ∨
        Unpicked cfg (cacheAfter react cfg process s i rest.isEmpty) process next.pick

/-- So it is in every attempt that is made. -/
def Contained : HealthCache → List (AttemptInput ρ) → Prop
  | _, [] => True
  | s, i :: rest =>
    i.Contained react fault unanswered cfg process s rest ∧
      ((reactionTo react cfg process s i rest.isEmpty).retries = true →
        Contained (cacheAfter react cfg process s i rest.isEmpty) rest)

end Loop

/-! ## The loop, for either function -/

/-- How a body of the loop reacts to the outcomes of the primary. -/
structure Reacts {ρ : Type} (react : Bool → Bool → ρ → Reaction) (fault unanswered : ρ → Bool) :
    Prop where
  demotes : ∀ last reply, fault reply = true → unanswered reply = true →
    (react true last reply).demotes = true ∧ (last = false → (react true last reply).retries = true)
  keeps : ∀ last reply, (fault reply = true → unanswered reply = true) →
    .recordFailure ∉ (react true last reply).records
  misses : ∀ last reply, fault reply = true → unanswered reply = false →
    .recordFailure ∉ (react true last reply).records → (react true last reply).demotes = false

variable {cfg : EndpointConfig}

/-- When a pick chooses NIM. -/
theorem pick_nim_iff (hconfigured : cfg.configured = true) (s : HealthCache) (process : Nat)
    (i : PickInput) :
    (pickChatUrl cfg s process i).1 = cfg.nimUrl ↔
      cfg.primaryUrl = cfg.nimUrl ∨ Unpicked cfg s process i := by
  have hurl : ∀ healthy, urlFor cfg healthy = cfg.nimUrl ↔
      cfg.primaryUrl = cfg.nimUrl ∨ healthy = false := by
    intro healthy
    cases healthy with
    | true => exact ⟨Or.inl, fun h => h.resolve_right Bool.noConfusion⟩
    | false => exact ⟨fun _ => Or.inr rfl, fun _ => rfl⟩
  unfold pickChatUrl Unpicked
  rw [if_pos hconfigured]
  cases getCached cfg s process i.reached with
  | some healthy =>
    dsimp only
    rw [hurl]
    cases healthy <;> simp
  | none =>
    dsimp only
    rw [hurl]
    simp

section Loop

variable {ρ : Type} {react : Bool → Bool → ρ → Reaction} {fault unanswered : ρ → Bool}

/-- The first attempt goes where its pick says. -/
theorem attempts_head (s : HealthCache) (process : Nat) (i : AttemptInput ρ)
    (rest : List (AttemptInput ρ)) (url : Text) :
    (∃ a ∈ (attempts react cfg process s (i :: rest)).head?, a.url = url) ↔
      (pickChatUrl cfg s process i.pick).1 = url := by
  unfold attempts
  simp

/-- What an attempt must do is what its input lets it do. -/
theorem Reacts.head (h : Reacts react fault unanswered) (hconfigured : cfg.configured = true)
    (s : HealthCache) (process : Nat) (i : AttemptInput ρ) (rest : List (AttemptInput ρ)) :
    AttemptLog.Apart cfg fault
        ⟨(pickChatUrl cfg s process i.pick).1, i.reply,
          reactionTo react cfg process s i rest.isEmpty, !rest.isEmpty⟩
        (if (reactionTo react cfg process s i rest.isEmpty).retries then
          attempts react cfg process (cacheAfter react cfg process s i rest.isEmpty) rest
        else []) ↔
      i.Contained react fault unanswered cfg process s rest := by
  unfold AttemptLog.Apart AttemptInput.Contained
  refine forall_congr' fun hprimary => ?_
  have hreaction : reactionTo react cfg process s i rest.isEmpty =
      react true rest.isEmpty i.reply := by
    unfold reactionTo
    rw [hprimary]
  rw [hreaction]
  dsimp only
  cases hfault : fault i.reply with
  | false =>
    have hkeeps := h.keeps rest.isEmpty i.reply fun hf => absurd (hfault.symm.trans hf) (by simp)
    exact ⟨fun _ hf => absurd hf (by simp), fun _ => ⟨hkeeps, fun hf => absurd hf (by simp)⟩⟩
  | true =>
    cases hunanswered : unanswered i.reply with
    | false =>
      constructor
      · rintro ⟨hrecords, hdemotes⟩
        have hdemotes := (hdemotes rfl).1
        rw [h.misses rest.isEmpty i.reply hfault hunanswered hrecords] at hdemotes
        exact absurd hdemotes Bool.false_ne_true
      · exact fun hall => absurd (hall rfl).1 Bool.false_ne_true
    | true =>
      have hkeeps := h.keeps rest.isEmpty i.reply fun _ => hunanswered
      obtain ⟨hdemotes, hretries⟩ := h.demotes rest.isEmpty i.reply hfault hunanswered
      cases rest with
      | nil =>
        exact ⟨fun _ _ => ⟨rfl, fun _ hnext => absurd hnext (by simp)⟩,
          fun _ => ⟨hkeeps, fun _ => ⟨hdemotes, fun hmore => absurd hmore (by simp)⟩⟩⟩
      | cons next more =>
        rw [if_pos (hretries rfl), attempts_head, pick_nim_iff hconfigured]
        constructor
        · rintro ⟨_, hall⟩ _
          refine ⟨rfl, ?_⟩
          rintro n ⟨⟩
          exact (hall rfl).2 rfl
        · intro hall
          exact ⟨hkeeps, fun _ => ⟨hdemotes, fun _ => (hall rfl).2 next rfl⟩⟩

/-- Faults are kept apart exactly when those of the primary are contained. -/
theorem Reacts.keptApart_iff (h : Reacts react fault unanswered)
    (hconfigured : cfg.configured = true) (s : HealthCache) (process : Nat)
    (inputs : List (AttemptInput ρ)) :
    KeptApart cfg fault (attempts react cfg process s inputs) ↔
      Contained react fault unanswered cfg process s inputs := by
  induction inputs generalizing s with
  | nil => exact Iff.rfl
  | cons i rest ih =>
    unfold attempts KeptApart Contained
    refine and_congr (h.head hconfigured s process i rest) ?_
    split
    next hretries => exact (ih _).trans ⟨fun hc _ => hc, fun hc => hc hretries⟩
    next hends => exact ⟨fun _ hretries => absurd hretries hends, fun _ => trivial⟩

end Loop

/-! ## `call` and `call_stream` -/

/-- What is not blank does not become so when it is stripped. -/
theorem strip_nonBlank {value : Option Json} {content : Text} (h : nonBlank value = some content) :
    strip content ≠ [] := by
  unfold nonBlank at h
  split at h
  next s =>
    split at h
    next => exact absurd h (by simp)
    next hblank =>
      obtain rfl := Option.some.inj h
      exact strip_strip_ne_nil (by simpa using hblank)
  next => exact absurd h (by simp)

theorem strip_partText {value : Option Json} {content : Text} (h : partText value = some content) :
    strip content ≠ [] := by
  unfold partText at h
  split at h
  next => exact strip_nonBlank h
  next => exact absurd h (by simp)

theorem strip_extractBody {data : Json} {content : Text} {calls : Option Json}
    (h : extractBody data = .ok (some content, calls)) : strip content ≠ [] := by
  unfold extractBody at h
  simp only [bind, Except.bind, pure, Except.pure] at h
  -- every return is of tool calls, of no text, or of one that is not blank
  repeat' split at h
  all_goals grind [strip_nonBlank, strip_partText]

/-- `_extract` gives no blank content. -/
theorem strip_extract {data : Json} {content : Text} {calls : Option Json}
    (h : extract data = (some content, calls)) : strip content ≠ [] := by
  unfold extract at h
  split at h
  next hbody =>
    rw [h] at hbody
    exact strip_extractBody hbody
  next => exact absurd h (by simp)

/-- From what is no dict `_extract` gets nothing. -/
theorem extract_of_not_obj {data : Json} (h : ∀ items, data ≠ .obj items) :
    extract data = (none, none) := by
  cases data with
  | obj items => exact absurd rfl (h items)
  | null => rfl
  | bool b => rfl
  | num q => rfl
  | str s => rfl
  | arr xs => rfl

/-- A 200 with a content or tool calls is a success. -/
theorem callAttempt_success (primary : Bool) {body : Option Json}
    (h : CallReply.fault (.response 200 body) = false) :
    callAttempt primary (.response 200 body) = { records := [.recordSuccess] } := by
  cases body with
  | none => exact absurd h (by simp [CallReply.fault])
  | some data =>
    have hextract : ¬ extract data = (none, none) := by
      intro heq
      simp [CallReply.fault, heq] at h
    cases data with
    | obj items =>
      cases heq : extract (.obj items) with
      | mk content calls =>
        cases calls with
        | some calls => simp [callAttempt, heq]
        | none =>
          cases content with
          | some content => simp [callAttempt, heq, strip_extract heq]
          | none => exact absurd heq hextract
    | null | bool _ | num _ | str _ | arr _ =>
      exact absurd (extract_of_not_obj fun items => Json.noConfusion) hextract

/-- A status or a connection that fails is the endpoint's fault for `call`. -/
theorem callAttempt_unanswered {reply : CallReply} (h : reply.unanswered = true) :
    callAttempt true reply = { demotes := true, retries := true } := by
  cases reply with
  | refused => rfl
  | response status body =>
    have hstatus : status ≠ 200 := by simpa [CallReply.unanswered] using h
    unfold callAttempt
    dsimp only
    rw [if_pos hstatus]
    rfl

/-- It never demotes the primary for the body of a 200. -/
theorem callAttempt_answered (primary : Bool) {reply : CallReply} (h : reply.unanswered = false) :
    (callAttempt primary reply).demotes = false := by
  cases reply with
  | refused => exact absurd h (by simp [CallReply.unanswered])
  | response status body =>
    have hstatus : ¬ status ≠ 200 := by simpa [CallReply.unanswered] using h
    unfold callAttempt
    dsimp only
    rw [if_neg hstatus]
    split
    next => rfl
    next =>
      split
      next => rfl
      next => split <;> rfl
      next => rfl
    next => rfl

theorem callReacts :
    Reacts (fun primary _ => callAttempt primary) CallReply.fault CallReply.unanswered := by
  refine ⟨?_, ?_, ?_⟩
  · intro last reply _ hunanswered
    rw [callAttempt_unanswered hunanswered]
    exact ⟨rfl, fun _ => rfl⟩
  · intro last reply hfault
    cases hunanswered : reply.unanswered with
    | true =>
      rw [callAttempt_unanswered hunanswered]
      exact List.not_mem_nil
    | false =>
      have hsuccess : reply.fault = false := by
        cases hf : reply.fault with
        | true => exact absurd ((hfault hf).symm.trans hunanswered) (by simp)
        | false => rfl
      cases reply with
      | refused => exact absurd hunanswered (by simp [CallReply.unanswered])
      | response status body =>
        obtain rfl : status = 200 := by simpa [CallReply.unanswered] using hunanswered
        rw [callAttempt_success true hsuccess]
        decide
  · exact fun last reply _ hunanswered _ => callAttempt_answered true hunanswered

theorem brokenStream_primary (last : Bool) :
    (brokenStream true last).records = [] ∧ (brokenStream true last).demotes = true ∧
      (last = false → (brokenStream true last).retries = true) := by
  cases last <;> decide

/-- `call_stream` records no failure of the primary. -/
theorem streamAttempt_records (last : Bool) (reply : Reply) :
    .recordFailure ∉ (streamAttempt true last reply).records := by
  cases reply with
  | refused =>
    rw [streamAttempt, (brokenStream_primary last).1]
    exact List.not_mem_nil
  | response status lines broken =>
    unfold streamAttempt
    dsimp only
    split
    next =>
      cases last with
      | false => exact List.not_mem_nil
      | true => simp
    next =>
      split
      next => decide
      next =>
        split
        next =>
          rw [(brokenStream_primary last).1]
          exact List.not_mem_nil
        next => decide
      next => exact List.not_mem_nil
      next => exact List.not_mem_nil

/-- It demotes the primary for a status or a connection that fails. -/
theorem streamAttempt_unanswered (last : Bool) {reply : Reply} (h : reply.unanswered = true) :
    (streamAttempt true last reply).demotes = true ∧
      (last = false → (streamAttempt true last reply).retries = true) := by
  cases reply with
  | refused => exact (brokenStream_primary last).2
  | response status lines broken =>
    unfold streamAttempt
    dsimp only
    split
    next =>
      cases last with
      | false => exact ⟨rfl, fun _ => rfl⟩
      | true => simp
    next hstatus =>
      have hbroken : broken = true ∧ (readBody lines []).2 = .exhausted := by
        simpa [Reply.unanswered, not_not.mp hstatus] using h
      rw [hbroken.2]
      dsimp only
      rw [if_pos hbroken.1]
      exact (brokenStream_primary last).2

/-- And for nothing else. -/
theorem streamAttempt_answered (last : Bool) {reply : Reply} (h : reply.unanswered = false) :
    (streamAttempt true last reply).demotes = false := by
  cases reply with
  | refused => exact absurd h (by simp [Reply.unanswered])
  | response status lines broken =>
    obtain ⟨rfl, hbroken⟩ : status = 200 ∧
        (broken = true → (readBody lines []).2 ≠ .exhausted) := by
      simpa [Reply.unanswered] using h
    unfold streamAttempt
    dsimp only
    rw [if_neg (by simp)]
    split
    next => rfl
    next hend =>
      cases broken with
      | true => exact absurd hend (hbroken rfl)
      | false => rfl
    next => rfl
    next => rfl

theorem streamReacts : Reacts streamAttempt Reply.fault Reply.unanswered where
  demotes last _ _ hunanswered := streamAttempt_unanswered last hunanswered
  keeps last reply _ := streamAttempt_records last reply
  misses last _ _ hunanswered _ := streamAttempt_answered last hunanswered

/-- With a failover, faults are kept apart exactly when those of the primary are
contained, in `call` and in `call_stream`. -/
theorem apart_iff {cfg : EndpointConfig} (hconfigured : cfg.configured = true) (s : HealthCache)
    (process : Nat) :
    (∀ inputs,
      KeptApart cfg CallReply.fault
          (attempts (fun primary _ => callAttempt primary) cfg process s inputs) ↔
        Contained (fun primary _ => callAttempt primary) CallReply.fault CallReply.unanswered cfg
          process s inputs) ∧
    (∀ inputs,
      KeptApart cfg Reply.fault (attempts streamAttempt cfg process s inputs) ↔
        Contained streamAttempt Reply.fault Reply.unanswered cfg process s inputs) :=
  ⟨callReacts.keptApart_iff hconfigured s process, streamReacts.keptApart_iff hconfigured s process⟩

/-- A demotion is in force at the next attempt when that reads a store that has
taken it, less than `LLM_HEALTH_TTL` later. -/
theorem unpicked_of_demoted {s : HealthCache} {process slept : Nat} {mark : Answer} {i : PickInput}
    (hreads : ReadsWritten cfg process mark process i.reached) (hslept : slept < cfg.ttl) :
    Unpicked cfg ((setCached cfg s process false mark).pass slept) process i := by
  have hcached : getCached cfg ((setCached cfg s process false mark).pass slept) process i.reached =
      some false := by
    have hlive : ∀ now, (live (now + slept) (some ⟨false, now + cfg.ttl⟩)).map Lease.token =
        some false := by
      intro now
      rw [live_eq_some.mpr ⟨rfl, Nat.add_lt_add_left hslept now⟩]
      rfl
    unfold getCached HealthCache.pass
    unfold ReadsWritten at hreads
    split
    next hredis =>
      rw [if_pos hredis] at hreads
      dsimp only
      rw [setCached_redis, setCached_now, if_pos hreads]
      exact hlive s.now
    next hlocal =>
      rw [if_neg hlocal] at hreads
      dsimp only
      rw [setCached_locals, setCached_now, if_pos hreads]
      exact hlive s.now
  exact ⟨by rw [hcached]; simp, by rw [hcached]; simp⟩

/-! ## Two calls -/

/-- Redis answers and the primary's probe succeeds. -/
def healthyPick : PickInput := ⟨true, true, .reply⟩

/-- `{"choices": [{"message": {"content": "hi"}}]}`. -/
def hiBody : Json :=
  .obj [("choices".toList, .arr [.obj [("message".toList, .obj
    [("content".toList, .str "hi".toList)])]])]

/-- The primary is down, and the retry a second later reaches NIM. -/
theorem primaryDown_apart :
    KeptApart twoEndpoints CallReply.fault (attempts (fun primary _ => callAttempt primary)
      twoEndpoints 0 {} [⟨healthyPick, .response 503 none, .reply, 40, 1000⟩,
        ⟨healthyPick, .response 200 (some hiBody), .reply, 40, 0⟩]) := by
  refine ((apart_iff (by decide) {} 0).1 _).mpr ⟨?_, fun _ => ⟨?_, fun _ => trivial⟩⟩
  · intro _ _
    refine ⟨rfl, ?_⟩
    rintro next ⟨⟩
    exact Or.inr ⟨by decide, by decide⟩
  · intro hprimary
    exact absurd hprimary (by decide)

/-- The primary answers a 200 with a page that is not JSON. -/
theorem loginPage_recorded :
    ¬ ∀ cfg process s inputs, cfg.configured = true →
      KeptApart cfg CallReply.fault
        (attempts (fun primary _ => callAttempt primary) cfg process s inputs) := by
  intro h
  have hapart := h twoEndpoints 0 {} [⟨healthyPick, .response 200 none, .reply, 40, 1000⟩,
    ⟨healthyPick, .response 200 (some hiBody), .reply, 40, 0⟩] (by decide)
  exact (hapart.1 (by decide)).1 (List.mem_singleton_self _)

end Eidetic.Upstream
