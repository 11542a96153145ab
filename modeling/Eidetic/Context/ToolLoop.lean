import Eidetic.Context.Spec

/-!
# Trimming inside the tool loop

Each round of the tool loop appends an assistant message with one tool call,
the tool's reply, and perhaps a system hint, and then trims the list. The
allocator looks at each message on its own: the assistant message has no
content and so is of tier 6, the reply has the tier of whatever text the tool
returned, or tier 0 when it is the last message, and the user's message, no
longer the last one, has the tier of what the user typed.

`toolLoop_wellFormed_iff` says exactly when the trimmed list still has the
user's message and only whole call rounds. When it does, the list is again
one the loop can continue from (`ToolConversation.trimmed`).

The form of the list is a structure, `ToolConversation`: the context, the user's
message, and what the rounds have appended, which is the inductive `LoopBuilt`.
So a message with a call is the loop's own (`ToolConversation.eq_callMessage`),
and the message after it is its reply (`Closed.reply`). What a trim does to each
of the three kinds is one lemma: a call is kept exactly when tier 6 fits, a
reply by its text or its place, the user's message by the tier of what was
typed.

`LoopWellFormed` is the property, on positions of the list that was passed in,
since equal messages may stand at several places. Its last field follows from
the second (`ToolConversation.closed_result`): dropping whole rounds and plain
messages leaves a closed list. The theorem puts the three lemmas side by side;
that it is about every round, and not about the first one, is
`ToolConversation.trimmed`.
-/

namespace Eidetic.Context

open Eidetic.Lib Eidetic.Py

/-- `{"role": "assistant", "tool_calls": [tc]}`. -/
def callMessage (tc : ToolCall) : Message := ⟨.assistant, none, [tc], none⟩

/-- `{"role": "tool", "tool_call_id": tc["id"], "content": result[:12000]}`. -/
def replyMessage (tc : ToolCall) (result : Text) : Message :=
  ⟨.tool, some (.text (result.take 12000)), [], some tc.id⟩

/-- What the rounds of the loop have appended: calls with their replies, and
the loop's own hints. -/
inductive LoopBuilt : List Message → Prop
  | nil : LoopBuilt []
  | hint (text : Text) {ms : List Message} (h : LoopBuilt ms) :
      LoopBuilt (.ofText .system text :: ms)
  | call (tc : ToolCall) (result : Text) {ms : List Message} (h : LoopBuilt ms) :
      LoopBuilt (callMessage tc :: replyMessage tc result :: ms)

/-- A message list of the tool loop: the context, the current user message
and the rounds so far. -/
structure ToolConversation where
  context : List Message
  user : Message
  loop : List Message
  contextPlain : ∀ m ∈ context, m.role ≠ .tool ∧ m.toolCalls = []
  userPlain : user.role = .user ∧ user.toolCalls = []
  loopBuilt : LoopBuilt loop

def ToolConversation.messages (c : ToolConversation) : List Message :=
  c.context ++ c.user :: c.loop

/-- Every tool message comes right after the assistant message with its call,
and every assistant message with a call right before its reply. -/
inductive Closed : List Message → Prop
  | nil : Closed []
  | plain {m : Message} {ms : List Message} (hrole : m.role ≠ .tool) (hcalls : m.toolCalls = [])
      (h : Closed ms) : Closed (m :: ms)
  | call {call reply : Message} {tc : ToolCall} {ms : List Message}
      (hcall : call.role = .assistant ∧ call.toolCalls = [tc])
      (hreply : reply.role = .tool ∧ reply.toolCallId = some tc.id ∧ reply.toolCalls = [])
      (h : Closed ms) : Closed (call :: reply :: ms)

/-! ## The lists of the loop are closed -/

theorem LoopBuilt.append {xs ys : List Message} (hx : LoopBuilt xs) (hy : LoopBuilt ys) :
    LoopBuilt (xs ++ ys) := by
  induction hx with
  | nil => exact hy
  | hint text _ ih => exact ih.hint text
  | call tc result _ ih => exact ih.call tc result

theorem LoopBuilt.closed {ms : List Message} (h : LoopBuilt ms) : Closed ms := by
  induction h with
  | nil => exact .nil
  | hint text _ ih => exact .plain Role.noConfusion rfl ih
  | call tc result _ ih => exact .call ⟨rfl, rfl⟩ ⟨rfl, rfl, rfl⟩ ih

theorem Closed.plain_append {xs ys : List Message}
    (hx : ∀ m ∈ xs, m.role ≠ .tool ∧ m.toolCalls = []) (hy : Closed ys) : Closed (xs ++ ys) := by
  induction xs with
  | nil => exact hy
  | cons m xs ih =>
    obtain ⟨hrole, hcalls⟩ := hx m (List.mem_cons_self ..)
    exact .plain hrole hcalls (ih fun m' hm' => hx m' (List.mem_cons_of_mem _ hm'))

theorem ToolConversation.closed (c : ToolConversation) : Closed c.messages :=
  .plain_append c.contextPlain
    (.plain (by rw [c.userPlain.1]; decide) c.userPlain.2 c.loopBuilt.closed)

/-- The message after a call is its reply. -/
theorem Closed.reply {ms : List Message} (h : Closed ms) {p : Nat} {call : Message}
    (hp : ms[p]? = some call) (hcalls : call.toolCalls ≠ []) :
    ∃ reply, ms[p + 1]? = some reply ∧ reply.role = .tool := by
  induction h generalizing p with
  | nil => exact absurd hp (by simp)
  | plain _ hnone _ ih =>
    cases p with
    | zero =>
      rw [← Option.some.inj hp] at hcalls
      exact absurd hnone hcalls
    | succ p => exact ih (by simpa using hp)
  | call _ hreply _ ih =>
    match p with
    | 0 => exact ⟨_, rfl, hreply.1⟩
    | 1 =>
      rw [← Option.some.inj hp] at hcalls
      exact absurd hreply.2.2 hcalls
    | p + 2 => exact ih (by simpa using hp)

/-- Dropping whole call rounds and plain messages leaves a closed list. -/
theorem Closed.keepBy {ms : List Message} (h : Closed ms) {keep : Nat → Bool}
    (hpairs : ∀ p call, ms[p]? = some call → call.toolCalls ≠ [] → keep p = keep (p + 1)) :
    Closed (keepBy keep ms) := by
  induction h generalizing keep with
  | nil => exact .nil
  | plain hrole hcalls _ ih =>
    have htail := ih fun p call hp => hpairs (p + 1) call (by simpa using hp)
    cases hk : keep 0 with
    | true =>
      rw [keepBy_cons_pos hk]
      exact .plain hrole hcalls htail
    | false =>
      rw [keepBy_cons_neg hk]
      exact htail
  | call hcall hreply _ ih =>
    have htail := ih fun p call hp => hpairs (p + 2) call (by simpa using hp)
    have heq := hpairs 0 _ rfl (by rw [hcall.2]; simp)
    cases hk : keep 0 with
    | true =>
      rw [keepBy_cons_pos hk, keepBy_cons_pos (by rw [← heq]; exact hk)]
      exact .call hcall hreply htail
    | false =>
      rw [keepBy_cons_neg hk, keepBy_cons_neg (by rw [← heq]; exact hk)]
      exact htail

/-- Editing contents leaves a closed list. -/
theorem Closed.update {ms : List Message} (h : Closed ms) (edits : Nat → Option Text) :
    Closed (ms.mapIdx fun i m => m.update (edits i)) := by
  induction h generalizing edits with
  | nil => exact .nil
  | plain hrole hcalls _ ih =>
    rw [List.mapIdx_cons]
    exact .plain (by simpa using hrole) (by simpa using hcalls) (ih fun i => edits (i + 1))
  | call hcall hreply _ ih =>
    rw [List.mapIdx_cons, List.mapIdx_cons]
    exact .call (by simpa using hcall) (by simpa using hreply) (ih fun i => edits (i + 2))

/-! ## Calls and replies under a trim -/

theorem LoopBuilt.eq_callMessage {ms : List Message} (h : LoopBuilt ms) {m : Message}
    (hm : m ∈ ms) (hcalls : m.toolCalls ≠ []) : ∃ tc, m = callMessage tc := by
  induction h with
  | nil => exact absurd hm (by simp)
  | hint text _ ih =>
    rcases List.mem_cons.mp hm with heq | hm
    · rw [heq] at hcalls
      exact absurd rfl hcalls
    · exact ih hm
  | call tc result _ ih =>
    rcases List.mem_cons.mp hm with heq | hm
    · exact ⟨tc, heq⟩
    · rcases List.mem_cons.mp hm with heq | hm
      · rw [heq] at hcalls
        exact absurd rfl hcalls
      · exact ih hm

/-- Only the loop's own messages carry calls. -/
theorem ToolConversation.eq_callMessage (c : ToolConversation) {m : Message}
    (hm : m ∈ c.messages) (hcalls : m.toolCalls ≠ []) : ∃ tc, m = callMessage tc := by
  rcases List.mem_append.mp hm with hm | hm
  · exact absurd (c.contextPlain m hm).2 hcalls
  · rcases List.mem_cons.mp hm with heq | hm
    · rw [heq] at hcalls
      exact absurd c.userPlain.2 hcalls
    · exact c.loopBuilt.eq_callMessage hm hcalls

variable {contextWindow maxOutputTokens : Int} {saliences : Saliences}

/-- A call is kept exactly when tier 6 fits. -/
theorem ToolConversation.keep_call (c : ToolConversation) {p : Nat} {call : Message}
    (hp : c.messages[p]? = some call) (hcalls : call.toolCalls ≠ []) :
    (applyContextBudget c.messages contextWindow maxOutputTokens saliences).keep p = true ↔
      (costAt c.messages 7 : Int) ≤ budgetOf contextWindow maxOutputTokens := by
  obtain ⟨tc, rfl⟩ := c.eq_callMessage (List.mem_of_getElem? hp) hcalls
  have hack : isAck (callMessage tc) = false := rfl
  obtain ⟨reply, hreply, _⟩ := c.closed.reply hp hcalls
  have hlt := (List.getElem?_eq_some_iff.mp hreply).1
  have htier : tierAt c.messages p = 6 := by
    rw [tierAt_of_getElem? hp, show (p + 1 == c.messages.length) = false by simp; omega]
    rfl
  have hdrop : dropSet c.messages 1 p = false := by
    unfold dropSet
    rw [ackedFrom_eq_false hp hack, htier]
    rfl
  rw [keep_iff_of_not_isAck hp hack, htier, rewrittenAt_of_not_dropSet hdrop]
  simp

/-- A reply is kept when it is of tier 0, when the stage above its tier fits,
or when it is a user state that is rewritten. -/
theorem ToolConversation.keep_reply (c : ToolConversation) {p : Nat} {call : Message}
    (hp : c.messages[p]? = some call) (hcalls : call.toolCalls ≠ []) :
    (applyContextBudget c.messages contextWindow maxOutputTokens saliences).keep (p + 1) = true ↔
      tierAt c.messages (p + 1) = 0 ∨
      (costAt c.messages (tierAt c.messages (p + 1) + 1) : Int)
        ≤ budgetOf contextWindow maxOutputTokens ∨
      (rewrittenAt c.messages saliences (p + 1)).isSome := by
  obtain ⟨reply, hreply, hrole⟩ := c.closed.reply hp hcalls
  exact keep_iff_of_not_isAck hreply (isAck_of_role_ne (by rw [hrole]; decide))

/-- The user's message is kept as it is when it is of tier 0 or the stage
above its tier fits. -/
theorem ToolConversation.keep_user (c : ToolConversation) :
    ((applyContextBudget c.messages contextWindow maxOutputTokens saliences).keep c.context.length
        = true ∧
      (applyContextBudget c.messages contextWindow maxOutputTokens saliences).messages[
        c.context.length]? = some c.user) ↔
      tierAt c.messages c.context.length = 0 ∨
      (costAt c.messages (tierAt c.messages c.context.length + 1) : Int)
        ≤ budgetOf contextWindow maxOutputTokens := by
  have hu : c.messages[c.context.length]? = some c.user := by
    simp [ToolConversation.messages]
  have hack : isAck c.user = false := isAck_of_role_ne (by rw [c.userPlain.1]; decide)
  rw [keep_iff_of_not_isAck hu hack]
  by_cases hfit : (costAt c.messages 2 : Int) ≤ budgetOf contextWindow maxOutputTokens
  · -- nothing is rewritten; a user state that might be is of tier 1, which fits
    have hsame : (applyContextBudget c.messages contextWindow maxOutputTokens saliences).messages
        = c.messages := by rw [applyContextBudget_of_fits hfit]
    rw [hsame]
    refine ⟨fun ⟨h, _⟩ => ?_, fun h => ⟨?_, hu⟩⟩
    · rcases h with h0 | hcost | hr
      · exact Or.inl h0
      · exact Or.inr hcost
      · have hdrop := dropSet_of_rewrittenAt hr
        unfold dropSet at hdrop
        rw [ackedFrom_eq_false hu hack] at hdrop
        have htier : tierAt c.messages c.context.length = 1 := by simpa using hdrop
        right
        rw [htier]
        exact hfit
    · rcases h with h0 | hcost
      · exact Or.inl h0
      · exact Or.inr (Or.inl hcost)
  · have htrim : applyContextBudget c.messages contextWindow maxOutputTokens saliences
        = userStateTrim c.messages saliences := applyContextBudget_of_over hfit
    refine ⟨fun ⟨h, hslot⟩ => ?_, fun h => ?_⟩
    · rcases h with h0 | hcost | hr
      · exact Or.inl h0
      · exact Or.inr hcost
      · rw [htrim] at hslot
        exact absurd (by rw [hslot, hu]) (userStateTrim_slot_ne hr)
    · have h0 : tierAt c.messages c.context.length = 0 := by
        rcases h with h0 | hcost
        · exact h0
        · by_contra hne
          have := costAt_mono c.messages
            (by omega : 2 ≤ tierAt c.messages c.context.length + 1)
          omega
      have hdrop : dropSet c.messages 1 c.context.length = false := by
        unfold dropSet
        rw [ackedFrom_eq_false hu hack, h0]
        rfl
      exact ⟨Or.inl h0, by rw [messages_of_not_dropSet hdrop]; exact hu⟩

/-! ## When a trim leaves the conversation well formed -/

/-- The user's message is still there, a call is kept exactly when its reply
is, and the trimmed list is closed. Positions are those of the list passed
in, so that equal messages of different rounds are told apart. -/
structure LoopWellFormed (c : ToolConversation) (trim : Trim) : Prop where
  user : trim.keep c.context.length = true ∧ trim.messages[c.context.length]? = some c.user
  pairs : ∀ p call, c.messages[p]? = some call → call.toolCalls ≠ [] →
    trim.keep p = trim.keep (p + 1)
  closed : Closed trim.result

/-- Whole rounds make a closed result. -/
theorem ToolConversation.closed_result (c : ToolConversation)
    (hpairs : ∀ p call, c.messages[p]? = some call → call.toolCalls ≠ [] →
      (applyContextBudget c.messages contextWindow maxOutputTokens saliences).keep p
        = (applyContextBudget c.messages contextWindow maxOutputTokens saliences).keep (p + 1)) :
    Closed (applyContextBudget c.messages contextWindow maxOutputTokens saliences).result := by
  obtain ⟨edits, hedits, _⟩ := messages_eq_mapIdx c.messages contextWindow maxOutputTokens saliences
  unfold Trim.result
  rw [hedits]
  refine (c.closed.update edits).keepBy fun p call hp hcalls => ?_
  rw [List.getElem?_mapIdx] at hp
  obtain ⟨m, hm, heq⟩ := Option.map_eq_some_iff.mp hp
  refine hpairs p m hm ?_
  rw [← heq] at hcalls
  simpa using hcalls

/-- Trimming leaves the conversation well formed exactly when the user's
message, if it is not of tier 0, has a tier whose stage above fits, and for
every call tier 6 fits exactly when its reply stays. -/
theorem toolLoop_wellFormed_iff (c : ToolConversation) (contextWindow maxOutputTokens : Int)
    (saliences : Saliences) :
    let budget := budgetOf contextWindow maxOutputTokens
    LoopWellFormed c (applyContextBudget c.messages contextWindow maxOutputTokens saliences) ↔
      (tierAt c.messages c.context.length = 0 ∨
        (costAt c.messages (tierAt c.messages c.context.length + 1) : Int) ≤ budget) ∧
      ∀ p call, c.messages[p]? = some call → call.toolCalls ≠ [] →
        ((costAt c.messages 7 : Int) ≤ budget ↔
          tierAt c.messages (p + 1) = 0 ∨
          (costAt c.messages (tierAt c.messages (p + 1) + 1) : Int) ≤ budget ∨
          (rewrittenAt c.messages saliences (p + 1)).isSome) := by
  intro budget
  have hcall : ∀ p call, c.messages[p]? = some call → call.toolCalls ≠ [] →
      ((applyContextBudget c.messages contextWindow maxOutputTokens saliences).keep p
          = (applyContextBudget c.messages contextWindow maxOutputTokens saliences).keep (p + 1) ↔
        ((costAt c.messages 7 : Int) ≤ budget ↔
          tierAt c.messages (p + 1) = 0 ∨
          (costAt c.messages (tierAt c.messages (p + 1) + 1) : Int) ≤ budget ∨
          (rewrittenAt c.messages saliences (p + 1)).isSome)) := by
    intro p call hp hcalls
    rw [Bool.eq_iff_iff, c.keep_call hp hcalls, c.keep_reply hp hcalls]
  refine ⟨fun h => ⟨c.keep_user.mp h.user, fun p call hp hcalls =>
    (hcall p call hp hcalls).mp (h.pairs p call hp hcalls)⟩, fun ⟨huser, hrounds⟩ => ?_⟩
  have hpairs : ∀ p call, c.messages[p]? = some call → call.toolCalls ≠ [] →
      (applyContextBudget c.messages contextWindow maxOutputTokens saliences).keep p
        = (applyContextBudget c.messages contextWindow maxOutputTokens saliences).keep (p + 1) :=
    fun p call hp hcalls => (hcall p call hp hcalls).mpr (hrounds p call hp hcalls)
  exact ⟨c.keep_user.mpr huser, hpairs, c.closed_result hpairs⟩

/-! ## The next round -/

/-- Whole rounds that are kept, with replies that have become shorter, are
again rounds the loop may have appended. -/
theorem LoopBuilt.trim {ms : List Message} (h : LoopBuilt ms) {keep : Nat → Bool}
    {edits : Nat → Option Text}
    (hpairs : ∀ p call, ms[p]? = some call → call.toolCalls ≠ [] → keep p = keep (p + 1))
    (hedits : ∀ i s, edits i = some s → ∃ m t, ms[i]? = some m ∧ m.role ≠ .system ∧
      m.getContent = .text t ∧ s.length < t.length) :
    LoopBuilt (Lib.keepBy keep (ms.mapIdx fun i m => m.update (edits i))) := by
  induction h generalizing keep edits with
  | nil => exact .nil
  | hint text _ ih =>
    have htail := ih (fun p call hp => hpairs (p + 1) call (by simpa using hp))
      fun i s hs => by simpa using hedits (i + 1) s hs
    have hsame : edits 0 = none := by
      cases he : edits 0 with
      | none => rfl
      | some s =>
        obtain ⟨m, _, hm, hrole, _⟩ := hedits 0 s he
        rw [← Option.some.inj hm] at hrole
        exact absurd rfl hrole
    rw [List.mapIdx_cons, hsame, Message.update_none]
    cases hk : keep 0 with
    | true =>
      rw [keepBy_cons_pos hk]
      exact htail.hint text
    | false =>
      rw [keepBy_cons_neg hk]
      exact htail
  | call tc result _ ih =>
    have htail := ih (fun p call hp => hpairs (p + 2) call (by simpa using hp))
      fun i s hs => by simpa using hedits (i + 2) s hs
    have heq := hpairs 0 _ rfl (by simp [callMessage])
    have hsame : edits 0 = none := by
      cases he : edits 0 with
      | none => rfl
      | some s =>
        obtain ⟨m, t, hm, _, ht, hlt⟩ := hedits 0 s he
        rw [← Option.some.inj hm] at ht
        rw [← Content.text.inj ht] at hlt
        exact absurd hlt (by simp)
    -- an edited reply is shorter than 12000 characters, so it is a reply as well
    have hreply : ∃ r, (replyMessage tc result).update (edits 1) = replyMessage tc r := by
      cases he : edits 1 with
      | none => exact ⟨result, rfl⟩
      | some s =>
        obtain ⟨m, t, hm, _, ht, hlt⟩ := hedits 1 s he
        have hm : replyMessage tc result = m := by simpa using hm
        rw [← hm] at ht
        rw [← Content.text.inj ht, List.length_take] at hlt
        have htake : s.take 12000 = s := List.take_of_length_le (by omega)
        refine ⟨s, ?_⟩
        show (⟨.tool, some (.text s), [], some tc.id⟩ : Message) = ⟨_, some (.text _), _, _⟩
        rw [htake]
    obtain ⟨r, hr⟩ := hreply
    rw [List.mapIdx_cons, List.mapIdx_cons, hsame, Message.update_none]
    show LoopBuilt (Lib.keepBy keep (_ :: (replyMessage tc result).update (edits 1) :: _))
    rw [hr]
    cases hk : keep 0 with
    | true =>
      rw [keepBy_cons_pos hk, keepBy_cons_pos (by rw [← heq]; exact hk)]
      exact htail.call tc r
    | false =>
      rw [keepBy_cons_neg hk, keepBy_cons_neg (by rw [← heq]; exact hk)]
      exact htail

/-- A trim that leaves the conversation well formed leaves a conversation of
the loop, with the same user message: the next round starts from one again. -/
theorem ToolConversation.trimmed (c : ToolConversation)
    (h : LoopWellFormed c
      (applyContextBudget c.messages contextWindow maxOutputTokens saliences)) :
    ∃ c' : ToolConversation, c'.user = c.user ∧ c'.messages
      = (applyContextBudget c.messages contextWindow maxOutputTokens saliences).result := by
  obtain ⟨edits, hedits, hrewritten⟩ :=
    messages_eq_mapIdx c.messages contextWindow maxOutputTokens saliences
  generalize htrim : applyContextBudget c.messages contextWindow maxOutputTokens saliences = trim
    at h hedits ⊢
  have hfacts : ∀ i s, edits i = some s → ∃ m t, c.messages[i]? = some m ∧ m.role ≠ .system ∧
      m.getContent = .text t ∧ s.length < t.length := by
    intro i s hs
    obtain ⟨m, t, hm, ht, hlt⟩ := rewrittenAt_spec (hrewritten i s hs)
    refine ⟨m, t, hm, fun hrole => ?_, ht, hlt⟩
    have hdrop : dropSet c.messages 1 i = true :=
      dropSet_of_rewrittenAt (by rw [hrewritten i s hs]; rfl)
    rw [(system_survives hm hrole).1] at hdrop
    exact absurd hdrop (by simp)
  -- the three parts of the list, each with its own flags and edits
  have hloop : ∀ p, c.messages[p + 1 + c.context.length]? = c.loop[p]? := by
    intro p
    unfold ToolConversation.messages
    rw [List.getElem?_append_right (by omega), Nat.add_sub_cancel, List.getElem?_cons_succ]
  have hsplit : trim.messages
      = (c.context.mapIdx fun i m => m.update (edits i))
        ++ c.user.update (edits (0 + c.context.length))
        :: (c.loop.mapIdx fun i m => m.update (edits (i + 1 + c.context.length))) := by
    rw [hedits]
    unfold ToolConversation.messages
    rw [List.mapIdx_append, List.mapIdx_cons]
  have huser : c.user.update (edits (0 + c.context.length)) = c.user := by
    have hslot := h.user.2
    rw [hsplit, List.getElem?_append_right (by simp)] at hslot
    simpa using hslot
  have hcontext : ∀ m ∈ Lib.keepBy trim.keep (c.context.mapIdx fun i m => m.update (edits i)),
      m.role ≠ .tool ∧ m.toolCalls = [] := by
    intro m hm
    obtain ⟨i, hi, heq⟩ := List.mem_mapIdx.mp ((keepBy_sublist _ _).subset hm)
    have hplain := c.contextPlain _ (List.getElem_mem hi)
    rw [← heq]
    simpa using hplain
  have htail : LoopBuilt (Lib.keepBy (fun i => trim.keep (i + 1 + c.context.length))
      (c.loop.mapIdx fun i m => m.update (edits (i + 1 + c.context.length)))) := by
    refine c.loopBuilt.trim (fun p call hp hcalls => ?_) fun i s hs => ?_
    · rw [h.pairs _ call (by rw [hloop]; exact hp) hcalls]
      congr 1
      omega
    · rw [← hloop]
      exact hfacts _ s hs
  refine ⟨⟨_, c.user, _, hcontext, c.userPlain, htail⟩, rfl, ?_⟩
  unfold Trim.result ToolConversation.messages
  rw [hsplit, keepBy_append, List.length_mapIdx, huser, keepBy_cons_pos h.user.1]
  congr 2
  apply keepBy_congr _
  intro i _
  congr 1
  omega

/-- One round: a tool was called and a long page came back. -/
def oneRound : ToolConversation where
  context := [.ofText .system "Be brief.".toList]
  user := .ofText .user "Look it up.".toList
  loop := [callMessage ⟨"c1".toList, "web_search".toList, "{}".toList⟩,
    replyMessage ⟨"c1".toList, "web_search".toList, "{}".toList⟩ (List.replicate 40 'x')]
  contextPlain := by decide
  userPlain := by decide
  loopBuilt := .call _ _ .nil

/-- The reply is the last message and stays; the question and the call go. -/
theorem oneRound_torn :
    ¬ LoopWellFormed oneRound (applyContextBudget oneRound.messages 12 0 []) := by
  intro h
  have hkeep := h.user.1
  revert hkeep
  decide

end Eidetic.Context
