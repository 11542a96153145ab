import Eidetic.Lib.Run
import Mathlib.Data.List.Basic

/-!
# What a memory update reads

The messages of one user's conversations, and the updates of the sheet, which
`user_write_lock` lets run one at a time. An update reads the messages of its
conversation after `last_summarized_at`, asks a model, and when it writes sets
`last_summarized_at` to the time it writes: one time for all conversations, and
not the time of the read. A message that is at or before it then and has been
in no prompt will be in none (`skipped_run`). As long as there never is one,
no update skips a message (`noneSkipped_of_timely`).

The state has the messages in the order they are committed, the mark, the update
that is running and those that have been written. `Skipped` says of one message
that it is behind the mark and in no prompt; it is kept by every step, so it
holds to the end (`skipped_run`). A write that comes while such a message exists
makes one, which is the converse (`skipped_of_untimely`, with `Reads` for what
prompts have).

In the other direction the invariant is `Covered`: whatever is at or before the
mark has been in a prompt, and what the running update could see will be.
Arriving messages, a start and a write each keep it, the last one because it is
timely.
-/

namespace Eidetic.Memory

open Eidetic.Lib

/-- A row of `messages`. -/
structure ChatMessage where
  conversation : Nat
  createdAt : Nat
deriving DecidableEq

/-- An update: its conversation, how many messages there were when it read them,
and which of them its prompt has. -/
structure Update where
  conversation : Nat
  visible : Nat
  prompt : List Nat
deriving DecidableEq

/-- One user's messages in the order they are committed, `last_summarized_at`,
the update that holds the lock, and those that have written. -/
structure Timeline where
  now : Nat := 0
  messages : List ChatMessage := []
  lastSummarizedAt : Option Nat := none
  running : Option Update := none
  written : List Update := []

/-- What can happen next. -/
inductive Event
  | pass (time : Nat)
  /-- A message of a transaction that has begun so long ago. -/
  | arrive (conversation age : Nat)
  | start (conversation : Nat)
  /-- The model answers with a sheet, or the update ends without a write. -/
  | finish (sheet : Bool)

/-- `Message.conversation_id == conversation_id`, and `created_at > last_at` if
there is a `last_at`. -/
def selects (conversation : Nat) (lastAt : Option Nat) (m : ChatMessage) : Bool :=
  m.conversation = conversation && lastAt.all fun t => t < m.createdAt

/-- The messages an update reads, by their places. -/
def newMessages (s : Timeline) (conversation : Nat) : List Nat :=
  (List.range s.messages.length).filter fun i =>
    s.messages[i]?.any (selects conversation s.lastSummarizedAt)

def Timeline.step (s : Timeline) : Event → Timeline
  | .pass time => { s with now := s.now + time }
  | .arrive conversation age =>
    { s with messages := s.messages ++ [⟨conversation, s.now - age⟩] }
  | .start conversation =>
    match s.running with
    -- it waits for the lock
    | some _ => s
    | none =>
      -- without new messages it returns at once
      if (newMessages s conversation).isEmpty then s
      else
        { s with
          running := some ⟨conversation, s.messages.length, newMessages s conversation⟩ }
  | .finish sheet =>
    match s.running with
    | some u =>
      if sheet then
        { s with lastSummarizedAt := some s.now, running := none, written := s.written ++ [u] }
      else { s with running := none }
    | none => s

/-- The message has been in the prompt of one of the updates. -/
def InPrompt (updates : List Update) (i : Nat) : Prop := ∃ u ∈ updates, i ∈ u.prompt

/-- Each message of its conversation that a successful update could read was in
its prompt or in that of an earlier one. -/
def NoneSkipped (s : Timeline) : Prop :=
  ∀ before u after, s.written = before ++ u :: after →
    ∀ i m, i < u.visible → s.messages[i]? = some m → m.conversation = u.conversation →
      InPrompt (before ++ [u]) i

/-- When an update writes, every message after the last write and up to now is of
its conversation and was there when it read, and a message arrives with a time
after the last write. -/
def Timely (s : Timeline) : Event → Prop
  | .finish true =>
    ∀ u, s.running = some u → ∀ i m, s.messages[i]? = some m → m.createdAt ≤ s.now →
      (∃ t, s.lastSummarizedAt = some t ∧ m.createdAt ≤ t) ∨
        (m.conversation = u.conversation ∧ i < u.visible)
  | .arrive _ age => ∀ t, s.lastSummarizedAt = some t → t < s.now - age
  | _ => True

/-- A message at or before `last_summarized_at` that has been in no prompt. -/
structure Skipped (s : Timeline) (i : Nat) : Prop where
  message : ∃ m t, s.messages[i]? = some m ∧ s.lastSummarizedAt = some t ∧ m.createdAt ≤ t ∧
    t ≤ s.now
  written : ¬ InPrompt s.written i
  running : ∀ u, s.running = some u → i ∉ u.prompt

theorem mem_newMessages {s : Timeline} {conversation i : Nat} :
    i ∈ newMessages s conversation ↔ ∃ m, s.messages[i]? = some m ∧ m.conversation = conversation ∧
      ∀ t, s.lastSummarizedAt = some t → t < m.createdAt := by
  unfold newMessages
  rw [List.mem_filter, List.mem_range]
  constructor
  · rintro ⟨_, hi⟩
    cases hm : s.messages[i]? with
    | none =>
      rw [hm] at hi
      exact absurd hi (by simp)
    | some m =>
      rw [hm] at hi
      obtain ⟨hconversation, hafter⟩ := Bool.and_eq_true_iff.mp hi
      refine ⟨m, rfl, of_decide_eq_true hconversation, ?_⟩
      intro t ht
      rw [ht] at hafter
      exact of_decide_eq_true hafter
  · rintro ⟨m, hm, hconversation, hafter⟩
    refine ⟨(List.getElem?_eq_some_iff.mp hm).1, ?_⟩
    rw [hm]
    refine Bool.and_eq_true_iff.mpr ⟨decide_eq_true hconversation, ?_⟩
    cases ht : s.lastSummarizedAt with
    | none => rfl
    | some t => exact decide_eq_true (hafter t ht)

theorem InPrompt.append {updates : List Update} {i : Nat} (h : InPrompt updates i)
    (more : List Update) : InPrompt (updates ++ more) i := by
  obtain ⟨u, hu, hi⟩ := h
  exact ⟨u, List.mem_append_left _ hu, hi⟩

/-- A message keeps its place. -/
theorem getElem?_append_some {messages : List ChatMessage} {i : Nat} {m : ChatMessage}
    (h : messages[i]? = some m) (more : List ChatMessage) : (messages ++ more)[i]? = some m := by
  rw [List.getElem?_append_left (List.getElem?_eq_some_iff.mp h).1]
  exact h

/-! ## What is skipped stays skipped -/

theorem skipped_step {s : Timeline} {i : Nat} (h : Skipped s i) (e : Event) :
    Skipped (s.step e) i := by
  obtain ⟨m, t, hm, ht, hle, hnow⟩ := h.message
  cases e with
  | pass time => exact ⟨⟨m, t, hm, ht, hle, by show t ≤ s.now + time; omega⟩, h.written, h.running⟩
  | arrive conversation age =>
    exact ⟨⟨m, t, getElem?_append_some hm _, ht, hle, hnow⟩, h.written, h.running⟩
  | start conversation =>
    unfold Timeline.step
    dsimp only
    split
    next => exact h
    next =>
      split
      next => exact h
      next =>
        refine ⟨h.message, h.written, ?_⟩
        intro u hu hi
        obtain rfl := Option.some.inj hu
        -- the read takes only what is after `last_summarized_at`
        obtain ⟨m', hm', _, hafter⟩ := mem_newMessages.mp hi
        obtain rfl : m = m' := Option.some.inj (hm.symm.trans hm')
        exact absurd (hafter t ht) (by omega)
  | finish sheet =>
    unfold Timeline.step
    dsimp only
    split
    next u hu =>
      split
      next =>
        refine ⟨⟨m, s.now, hm, rfl, by omega, Nat.le_refl _⟩, ?_, fun _ hnone => by simp at hnone⟩
        rintro ⟨v, hv, hi⟩
        rcases List.mem_append.mp hv with hv | hv
        · exact h.written ⟨v, hv, hi⟩
        · obtain rfl := List.mem_singleton.mp hv
          exact h.running v hu hi
      next => exact ⟨h.message, h.written, fun _ hnone => by simp at hnone⟩
    next => exact h

/-- A message that is skipped is in no prompt of the rest of a run. -/
theorem skipped_run {s : Timeline} {i : Nat} (h : Skipped s i) (events : List Event) :
    Skipped (run Timeline.step s events) i :=
  run_preserves (fun s => Skipped s i) (fun _ e h => skipped_step h e) h events

/-- What the prompts have is what could be read. -/
structure Reads (s : Timeline) : Prop where
  past : ∀ m ∈ s.messages, m.createdAt ≤ s.now
  last : ∀ t, s.lastSummarizedAt = some t → t ≤ s.now
  written : ∀ i, InPrompt s.written i → ∃ m t, s.messages[i]? = some m ∧
    s.lastSummarizedAt = some t ∧ m.createdAt ≤ t
  running : ∀ u, s.running = some u → ∀ i ∈ u.prompt, ∃ m, s.messages[i]? = some m ∧
    m.conversation = u.conversation ∧ i < u.visible

theorem reads_step (s : Timeline) (e : Event) (h : Reads s) : Reads (s.step e) := by
  cases e with
  | pass time =>
    refine ⟨fun m hm => ?_, fun t ht => ?_, h.written, h.running⟩
    · exact Nat.le_trans (h.past m hm) (Nat.le_add_right _ _)
    · exact Nat.le_trans (h.last t ht) (Nat.le_add_right _ _)
  | arrive conversation age =>
    refine ⟨?_, h.last, ?_, ?_⟩
    · intro m hm
      rcases List.mem_append.mp hm with hm | hm
      · exact h.past m hm
      · obtain rfl := List.mem_singleton.mp hm
        exact Nat.sub_le _ _
    · intro i hi
      obtain ⟨m, t, hm, ht, hle⟩ := h.written i hi
      exact ⟨m, t, getElem?_append_some hm _, ht, hle⟩
    · intro u hu i hi
      obtain ⟨m, hm, hread⟩ := h.running u hu i hi
      exact ⟨m, getElem?_append_some hm _, hread⟩
  | start conversation =>
    unfold Timeline.step
    dsimp only
    split
    next => exact h
    next =>
      split
      next => exact h
      next =>
        refine ⟨h.past, h.last, h.written, ?_⟩
        intro u hu i hi
        obtain rfl := Option.some.inj hu
        obtain ⟨m, hm, hconversation, _⟩ := mem_newMessages.mp hi
        exact ⟨m, hm, hconversation, (List.getElem?_eq_some_iff.mp hm).1⟩
  | finish sheet =>
    unfold Timeline.step
    dsimp only
    split
    next u hu =>
      split
      next =>
        refine ⟨h.past, fun t ht => ?_, ?_, fun _ hnone => by simp at hnone⟩
        · obtain rfl := Option.some.inj ht
          exact Nat.le_refl _
        · rintro i ⟨v, hv, hi⟩
          rcases List.mem_append.mp hv with hv | hv
          · obtain ⟨m, t, hm, ht, hle⟩ := h.written i ⟨v, hv, hi⟩
            exact ⟨m, s.now, hm, rfl, Nat.le_trans hle (h.last t ht)⟩
          · obtain rfl := List.mem_singleton.mp hv
            obtain ⟨m, hm, _⟩ := h.running v hu i hi
            exact ⟨m, s.now, hm, rfl, h.past m (List.mem_of_getElem? hm)⟩
      next => exact ⟨h.past, h.last, h.written, fun _ hnone => by simp at hnone⟩
    next => exact h

theorem reads_run (events : List Event) : Reads (run Timeline.step {} events) :=
  run_preserves Reads (fun s e h => reads_step s e h)
    ⟨by simp, by simp, fun _ ⟨_, hu, _⟩ => absurd hu (by simp), by simp⟩ events

/-- In every run a write that is not timely skips a message. -/
theorem skipped_of_untimely {events : List Event}
    (h : ¬ Timely (run Timeline.step {} events) (.finish true)) :
    ∃ i, Skipped ((run Timeline.step {} events).step (.finish true)) i := by
  have hreads := reads_run events
  generalize run Timeline.step {} events = s at h hreads ⊢
  unfold Timely at h
  push Not at h
  obtain ⟨u, hu, i, m, hm, hle, hafter, hother⟩ := h
  refine ⟨i, ?_⟩
  unfold Timeline.step
  rw [hu]
  refine ⟨⟨m, s.now, hm, rfl, hle, Nat.le_refl _⟩, ?_, fun _ hnone => by simp at hnone⟩
  rintro ⟨v, hv, hi⟩
  rcases List.mem_append.mp hv with hv | hv
  · -- what an earlier update had is at or before `last_summarized_at`
    obtain ⟨m', t, hm', ht, hle'⟩ := hreads.written i ⟨v, hv, hi⟩
    obtain rfl : m = m' := Option.some.inj (hm.symm.trans hm')
    exact absurd (hafter t ht) (by omega)
  · obtain rfl := List.mem_singleton.mp hv
    obtain ⟨m', hm', hconversation, hvisible⟩ := hreads.running v hu i hi
    obtain rfl : m = m' := Option.some.inj (hm.symm.trans hm')
    exact absurd (hother hconversation) (by omega)

/-! ## Timely runs -/

/-- What holds as long as the steps are timely. -/
structure Covered (s : Timeline) : Prop where
  skipped : NoneSkipped s
  before : ∀ t, s.lastSummarizedAt = some t → ∀ i m, s.messages[i]? = some m → m.createdAt ≤ t →
    InPrompt s.written i
  visible : ∀ u ∈ s.written, u.visible ≤ s.messages.length
  running : ∀ u, s.running = some u → u.visible ≤ s.messages.length ∧
    ∀ i m, i < u.visible → s.messages[i]? = some m → m.conversation = u.conversation →
      InPrompt (s.written ++ [u]) i

theorem Covered.arrive {s : Timeline} (h : Covered s) {conversation age : Nat}
    (htimely : Timely s (.arrive conversation age)) :
    Covered (s.step (.arrive conversation age)) := by
  have hlength : (s.messages ++ [(⟨conversation, s.now - age⟩ : ChatMessage)]).length =
      s.messages.length + 1 := by
    simp
  -- what could be read before is where it was
  have hold : ∀ {i n : Nat} {m : ChatMessage}, n ≤ s.messages.length → i < n →
      (s.messages ++ [(⟨conversation, s.now - age⟩ : ChatMessage)])[i]? = some m →
        s.messages[i]? = some m := by
    intro i n m hn hi hm
    rw [List.getElem?_append_left (by omega)] at hm
    exact hm
  refine ⟨?_, ?_, ?_, ?_⟩
  · intro before u after hu i m hi hm hconversation
    have hvisible := h.visible u (by rw [show s.written = _ from hu]; simp)
    exact h.skipped before u after hu i m hi (hold hvisible hi hm) hconversation
  · intro t ht i m hm hle
    by_cases hi : i < s.messages.length
    · exact h.before t ht i m (hold (Nat.le_refl _) hi hm) hle
    · change (s.messages ++ [_])[i]? = some m at hm
      rw [List.getElem?_append_right (by omega)] at hm
      obtain rfl : (⟨conversation, s.now - age⟩ : ChatMessage) = m := by
        rw [List.getElem?_singleton] at hm
        split at hm
        next => exact Option.some.inj hm
        next => exact absurd hm (by simp)
      exact absurd (htimely t ht) (by dsimp only at hle; omega)
  · intro u hu
    have hvisible := h.visible u hu
    show u.visible ≤ (s.messages ++ [_]).length
    omega
  · intro u hu
    obtain ⟨hvisible, hcovered⟩ := h.running u hu
    refine ⟨by show u.visible ≤ (s.messages ++ [_]).length; omega, ?_⟩
    intro i m hi hm
    exact hcovered i m hi (hold hvisible hi hm)

theorem Covered.start {s : Timeline} (h : Covered s) (conversation : Nat) :
    Covered (s.step (.start conversation)) := by
  unfold Timeline.step
  dsimp only
  split
  next => exact h
  next =>
    split
    next => exact h
    next =>
      refine ⟨h.skipped, h.before, h.visible, ?_⟩
      intro u hu
      obtain rfl := Option.some.inj hu
      refine ⟨Nat.le_refl _, ?_⟩
      intro i m _ hm hconversation
      by_cases hafter : ∀ t, s.lastSummarizedAt = some t → t < m.createdAt
      · exact ⟨_, List.mem_append_right _ (List.mem_singleton.mpr rfl),
          mem_newMessages.mpr ⟨m, hm, hconversation, hafter⟩⟩
      · push Not at hafter
        obtain ⟨t, ht, hle⟩ := hafter
        exact (h.before t ht i m hm (by omega)).append _

theorem Covered.finish {s : Timeline} (h : Covered s) {sheet : Bool}
    (htimely : Timely s (.finish sheet)) : Covered (s.step (.finish sheet)) := by
  unfold Timeline.step
  dsimp only
  split
  next u hu =>
    obtain ⟨hvisible, hcovered⟩ := h.running u hu
    cases sheet with
    | true =>
      refine ⟨?_, ?_, ?_, fun _ hnone => by simp at hnone⟩
      · intro before v after hv i m hi hm hconversation
        rcases List.eq_nil_or_concat after with rfl | ⟨rest, last, rfl⟩
        · -- the update that has just written
          obtain ⟨hbefore, hlast⟩ :=
            List.append_inj' (show s.written ++ [u] = before ++ [v] from hv) rfl
          obtain rfl : u = v := by simpa using hlast
          rw [← hbefore]
          exact hcovered i m hi hm hconversation
        · have hsplit : s.written ++ [u] = (before ++ v :: rest) ++ [last] := by
            rw [show s.written ++ [u] = _ from hv]
            simp
          exact h.skipped before v rest (List.append_inj' hsplit rfl).1 i m hi hm hconversation
      · intro t ht i m hm hle
        obtain rfl : s.now = t := Option.some.inj ht
        rcases htimely u hu i m hm hle with ⟨t, ht, hle⟩ | ⟨hconversation, hi⟩
        · exact (h.before t ht i m hm hle).append [u]
        · exact hcovered i m hi hm hconversation
      · intro v hv
        rcases List.mem_append.mp hv with hv | hv
        · exact h.visible v hv
        · obtain rfl := List.mem_singleton.mp hv
          exact hvisible
    | false => exact ⟨h.skipped, h.before, h.visible, fun _ hnone => by simp at hnone⟩
  next => exact h

theorem covered_step (s : Timeline) (e : Event) (h : Covered s) (htimely : Timely s e) :
    Covered (s.step e) := by
  cases e with
  | pass time => exact ⟨h.skipped, h.before, h.visible, h.running⟩
  | arrive conversation age => exact h.arrive htimely
  | start conversation => exact h.start conversation
  | finish sheet => exact h.finish htimely

theorem covered_initial : Covered {} :=
  ⟨fun before u after hu => absurd hu (by simp), fun _ h => absurd h (by simp), by simp,
    fun _ h => absurd h (by simp)⟩

/-- In a run of timely steps no update skips a message. -/
theorem noneSkipped_of_timely {events : List Event}
    (h : Throughout Timeline.step Timely {} events) : NoneSkipped (run Timeline.step {} events) :=
  (run_invariant Covered covered_step covered_initial h).skipped

/-- A write is timely if each message is before the last one, or its own. -/
theorem timely_finish {s : Timeline} {u : Update} (hu : s.running = some u)
    (h : ∀ p ∈ s.messages.zipIdx, s.lastSummarizedAt.any (p.1.createdAt ≤ ·) = true ∨
      p.1.conversation = u.conversation ∧ p.2 < u.visible) : Timely s (.finish true) := by
  intro v hv i m hm _
  obtain rfl : u = v := Option.some.inj (hu.symm.trans hv)
  have hmem : (m, i) ∈ s.messages.zipIdx := List.mk_mem_zipIdx_iff_getElem?.mpr hm
  rcases h (m, i) hmem with hlast | hown
  · obtain ⟨t, ht, hle⟩ := (Option.any_eq_true _ _).mp hlast
    exact .inl ⟨t, ht, of_decide_eq_true hle⟩
  · exact .inr hown

/-- Two conversations in turn, each updated after its message. -/
def inTurn : List Event :=
  [.arrive 1 0, .start 1, .finish true, .pass 5, .arrive 2 0, .start 2, .finish true, .pass 5,
    .arrive 1 0, .start 1, .finish true]

theorem inTurn_covered : NoneSkipped (run Timeline.step {} inTurn) := by
  have harrive : ∀ (s : Timeline) {conversation age : Nat}, s.lastSummarizedAt.all (· < s.now - age) = true →
      Timely s (.arrive conversation age) := by
    intro s _ _ h t ht
    rw [ht] at h
    exact of_decide_eq_true h
  refine noneSkipped_of_timely ⟨harrive _ rfl, trivial, timely_finish rfl (by decide), trivial,
    harrive _ rfl, trivial, timely_finish rfl (by decide), trivial, harrive _ rfl, trivial,
    timely_finish rfl (by decide), trivial⟩

/-- A message of one conversation, and an update of another before its own. -/
def otherConversation : List Event :=
  [.arrive 1 0, .arrive 2 0, .start 2, .finish true, .pass 5, .arrive 1 0, .start 1, .finish true]

theorem otherConversation_skipped : ¬ ∀ events, NoneSkipped (run Timeline.step {} events) := by
  intro h
  have hprompt := h otherConversation [⟨2, 2, [1]⟩] ⟨1, 3, [2]⟩ [] rfl 0 ⟨1, 0⟩ (by decide) rfl rfl
  obtain ⟨u, hu, hi⟩ := hprompt
  rcases List.mem_append.mp hu with hu | hu
  · obtain rfl := List.mem_singleton.mp hu
    exact absurd hi (by decide)
  · obtain rfl := List.mem_singleton.mp hu
    exact absurd hi (by decide)

end Eidetic.Memory
