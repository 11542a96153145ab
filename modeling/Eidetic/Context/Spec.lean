import Eidetic.Context.Budget

/-!
# What `apply_context_budget` promises

Two results about the allocator on its own. On a list whose only user-state
message is a system one it is the plain rule: the list itself if it fits,
else the largest present tier whose stage fits, else tier 0
(`applyContextBudget_spec`). And it leaves its input alone and is idempotent
exactly as long as no slot is rewritten (`applyContextBudget_stable_iff`):
a rewritten text is strictly shorter, so the caller's list has changed.

The rule on a list as `generate_stream` builds it is in terms of the claim: the
largest present tier `t` such that what is left of the messages below `t` fits.
`StreamBuilt` has what that needs to be the same as the stages of the allocator:
no message of the list is of tier 1, as a user state is a system message, and
the last message is no ack. Then stage `t` keeps the messages below tier `t` and
the acks of those, and stage 1 keeps tier 0. That the result has all system
messages and the last message, is a subsequence, and grows with the window, is
read off `applyContextBudget_eq` and the monotony of the stages.

For any list, the allocator is stable exactly when it does not come to rewrite a
slot. If it does, the text in the caller's list has become strictly shorter
(`rebuildUserState_length`). If it does not, trimming the result again changes
nothing, because what is left of a stage that fits fits
(`applyContextBudget_keepAt`).
-/

namespace Eidetic.Context

open Eidetic.Lib Eidetic.Py

variable {messages : List Message} {contextWindow maxOutputTokens : Int} {saliences : Saliences}

/-! ## The result when nothing is rewritten -/

/-- The flags are those of the highest stage that fits, at least stage 1. -/
theorem applyContextBudget_of_none (h : ∀ i, rewrittenAt messages saliences i = none) :
    applyContextBudget messages contextWindow maxOutputTokens saliences
      = ⟨messages, survives messages
          (max 1 (cutAt (costAt messages) (budgetOf contextWindow maxOutputTokens) 9))⟩ := by
  rw [applyContextBudget_eq, loopEnd]
  split
  next h2 => rw [Nat.max_eq_right (by omega)]
  next h2 => rw [Nat.max_eq_left (by omega), userStateTrim_of_none h]

/-- Down to stage 2 the flags do not depend on the saliences. -/
theorem applyContextBudget_of_fits
    (h : (costAt messages 2 : Int) ≤ budgetOf contextWindow maxOutputTokens) :
    applyContextBudget messages contextWindow maxOutputTokens saliences
      = ⟨messages, survives messages
          (cutAt (costAt messages) (budgetOf contextWindow maxOutputTokens) 9)⟩ := by
  rw [applyContextBudget_eq, loopEnd, if_pos (le_cutAt (by omega) h)]

/-- Below stage 2 the result is the user-state stage. -/
theorem applyContextBudget_of_over
    (h : ¬ (costAt messages 2 : Int) ≤ budgetOf contextWindow maxOutputTokens) :
    applyContextBudget messages contextWindow maxOutputTokens saliences
      = userStateTrim messages saliences := by
  rw [applyContextBudget_eq, loopEnd, if_neg]
  rw [le_cutAt_iff (costAt_mono messages) (by omega) (by omega)]
  exact h

theorem applyContextBudget_of_tokens
    (h : (tokensOf messages : Int) ≤ budgetOf contextWindow maxOutputTokens) :
    (applyContextBudget messages contextWindow maxOutputTokens saliences).result = messages := by
  rw [← costAt_nine messages (Nat.le_refl 9)] at h
  have h2 : (costAt messages 2 : Int) ≤ budgetOf contextWindow maxOutputTokens := by
    have := costAt_mono messages (show 2 ≤ 9 by omega)
    omega
  rw [applyContextBudget_of_fits h2, cutAt_eq_top h]
  exact keepAt_nine messages (Nat.le_refl 9)

/-! ## Single messages -/

/-- Outside the tier-1 drop set a slot is left as it was. -/
theorem messages_of_not_dropSet {i : Nat} (h : dropSet messages 1 i = false) :
    (applyContextBudget messages contextWindow maxOutputTokens saliences).messages[i]?
      = messages[i]? := by
  rw [applyContextBudget_eq, loopEnd]
  split
  next => rfl
  next =>
    show (List.mapIdx _ messages)[i]? = _
    rw [List.getElem?_mapIdx, rewrittenAt_of_not_dropSet h]
    simp

/-- Outside the tier-1 drop set the flags are those of the cut. -/
theorem keep_of_not_dropSet {i : Nat} (h : dropSet messages 1 i = false) :
    (applyContextBudget messages contextWindow maxOutputTokens saliences).keep i
      = survives messages
          (max 1 (cutAt (costAt messages) (budgetOf contextWindow maxOutputTokens) 9)) i := by
  rw [applyContextBudget_eq, loopEnd]
  split
  next h2 => rw [Nat.max_eq_right (by omega)]
  next h2 =>
    rw [Nat.max_eq_left (by omega)]
    show ((rewrittenAt messages saliences i).isSome || survives messages 1 i) = _
    rw [rewrittenAt_of_not_dropSet h]
    rfl

/-- A message that is no ack is kept when its tier is 0, when the stage above
its tier fits, or when it is rewritten. -/
theorem keep_iff_of_not_isAck {i : Nat} {m : Message} (hm : messages[i]? = some m)
    (hack : isAck m = false) :
    (applyContextBudget messages contextWindow maxOutputTokens saliences).keep i = true ↔
      tierAt messages i = 0 ∨
      (costAt messages (tierAt messages i + 1) : Int) ≤ budgetOf contextWindow maxOutputTokens ∨
      (rewrittenAt messages saliences i).isSome := by
  have hle := tierAt_le messages i
  have hcut : tierAt messages i + 1
        ≤ cutAt (costAt messages) (budgetOf contextWindow maxOutputTokens) 9 ↔
      (costAt messages (tierAt messages i + 1) : Int)
        ≤ budgetOf contextWindow maxOutputTokens :=
    le_cutAt_iff (costAt_mono messages) (by omega) (by omega)
  -- only messages of tier 1 can be rewritten, and those are no acks here
  by_cases hdrop : dropSet messages 1 i = true
  · have htier : tierAt messages i = 1 := by
      unfold dropSet at hdrop
      rw [ackedFrom_eq_false hm hack] at hdrop
      simpa using hdrop
    rw [htier] at hcut ⊢
    by_cases hfit : (costAt messages 2 : Int) ≤ budgetOf contextWindow maxOutputTokens
    · rw [applyContextBudget_of_fits hfit]
      show survives messages _ i = true ↔ _
      rw [survives_of_not_isAck hm hack, htier]
      have hkept := hcut.mpr hfit
      simp only [decide_eq_true_eq, hfit, true_or, or_true, iff_true, gt_iff_lt]
      omega
    · rw [applyContextBudget_of_over hfit]
      show ((rewrittenAt messages saliences i).isSome || survives messages 1 i) = true ↔ _
      rw [survives_of_not_isAck hm hack, htier]
      simp [hfit]
  · have hdrop : dropSet messages 1 i = false := by simpa using hdrop
    have hne : tierAt messages i ≠ 1 := by
      unfold dropSet at hdrop
      rw [ackedFrom_eq_false hm hack] at hdrop
      simpa using hdrop
    rw [keep_of_not_dropSet hdrop, survives_of_not_isAck hm hack,
      rewrittenAt_of_not_dropSet hdrop, ← hcut]
    simp only [lt_sup_iff, Nat.lt_one_iff, Bool.decide_or, Bool.or_eq_true, decide_eq_true_eq,
      Option.isSome_none, Bool.false_eq_true, or_false]
    omega

/-- A system message is in no tier-1 drop set, and survives every stage. -/
theorem system_survives {i : Nat} {m : Message} (hm : messages[i]? = some m)
    (hrole : m.role = .system) :
    dropSet messages 1 i = false ∧ survives messages 1 i = true := by
  have hack : isAck m = false := isAck_of_role_ne (by rw [hrole]; decide)
  have htier : tierAt messages i = 0 := by
    rw [tierAt_of_getElem? hm, messageTier_system hrole]
  refine ⟨?_, ?_⟩
  · unfold dropSet
    rw [ackedFrom_eq_false hm hack, htier]
    rfl
  · rw [survives_of_not_isAck hm hack, htier]
    rfl

/-- The list passed in, with at most the user-state edits. -/
theorem messages_eq_mapIdx (messages : List Message) (contextWindow maxOutputTokens : Int)
    (saliences : Saliences) : ∃ edits : Nat → Option Text,
      (applyContextBudget messages contextWindow maxOutputTokens saliences).messages
        = messages.mapIdx (fun i m => m.update (edits i)) ∧
      ∀ i s, edits i = some s → rewrittenAt messages saliences i = some s := by
  by_cases hfit : (costAt messages 2 : Int) ≤ budgetOf contextWindow maxOutputTokens
  · refine ⟨fun _ => none, ?_, fun i s h => absurd h (by simp)⟩
    rw [applyContextBudget_of_fits hfit]
    apply List.ext_getElem?
    intro i
    simp [List.getElem?_mapIdx]
  · refine ⟨rewrittenAt messages saliences, ?_, fun i s h => h⟩
    rw [applyContextBudget_of_over hfit]
    rfl

/-! ## The rule on a list with one kind of user state -/

/-- Some message is of tier `t`. -/
def Present (messages : List Message) (t : Nat) : Prop :=
  ∃ i, i < messages.length ∧ tierAt messages i = t

/-- The largest tier `≥ 1` among the present ones whose stage fits. -/
def LargestFitting (messages : List Message) (budget : Int) (t : Nat) : Prop :=
  1 ≤ t ∧ Present messages t ∧ (costAt messages t : Int) ≤ budget ∧
    ∀ s, Present messages s → (costAt messages s : Int) ≤ budget → s ≤ t

/-- The lists `generate_stream` passes in: a user state is a system message,
and the last message is not an assistant's. -/
structure StreamBuilt (messages : List Message) : Prop where
  userState : ∀ m ∈ messages, ∀ s, m.getContent = .text s →
    startsWith s "[USER STATE]".toList = true → m.role = .system
  last : ∀ m, messages.getLast? = some m → m.role ≠ .assistant

theorem StreamBuilt.tierAt_ne_one (h : StreamBuilt messages) (i : Nat) :
    tierAt messages i ≠ 1 := by
  intro hi
  have hlt : i < messages.length := lt_length_of_tierAt (by omega)
  have hm := List.getElem?_eq_getElem hlt
  rw [tierAt_of_getElem? hm] at hi
  obtain ⟨_, hrole, s, hs, htier⟩ := messageTier_text (Nat.le_of_eq hi.symm)
  exact hrole (h.userState _ (List.getElem_mem hlt) s hs
    (startsWith_of_textTier_one (by omega)))

/-- A tier-0 message is the last one, a list content or a system message: no ack. -/
theorem StreamBuilt.isAck_of_tier_zero (h : StreamBuilt messages) {i : Nat} {m : Message}
    (hm : messages[i]? = some m) (ht : tierAt messages i = 0) : isAck m = false := by
  cases hack : isAck m with
  | false => rfl
  | true =>
    obtain ⟨s, hs, _⟩ := isAck_text hack
    rw [tierAt_of_getElem? hm] at ht
    have hcontent : m.getContent = .text s := by rw [Message.getContent, hs]; rfl
    unfold messageTier at ht
    split at ht
    next hlast =>
      have hlen : i = messages.length - 1 := by
        have : i + 1 = messages.length := by simpa using hlast
        omega
      rw [hlen, ← List.getLast?_eq_getElem?] at hm
      exact absurd (isAck_role hack) (h.last m hm)
    next =>
      rw [hcontent] at ht
      simp only [isAck_role hack] at ht
      have := textTier_pos s
      simp at ht
      omega

/-- Tier 0 survives stage 1, and nothing else does. -/
theorem StreamBuilt.survives_one (h : StreamBuilt messages) {i : Nat} (hi : i < messages.length) :
    survives messages 1 i = (tierAt messages i == 0) := by
  by_cases ht : tierAt messages i = 0
  · have hm := List.getElem?_eq_getElem hi
    rw [survives_of_not_isAck hm (h.isAck_of_tier_zero hm ht), ht]
    rfl
  · rw [Bool.eq_iff_iff, survives_iff, beq_iff_eq]
    omega

/-- Of the messages `generate_stream` passes in, a tier-0 one survives every stage. -/
theorem StreamBuilt.survives_of_tier_zero (h : StreamBuilt messages) {i t : Nat} {m : Message}
    (hm : messages[i]? = some m) (ht : tierAt messages i = 0) (h1 : 1 ≤ t) :
    survives messages t i = true := by
  rw [survives_of_not_isAck hm (h.isAck_of_tier_zero hm ht)]
  simp
  omega

/-- A present tier is at most 8, and the cut of an over-budget list is one. -/
theorem largestFitting_cutAt {budget : Int} (hover : ¬ (tokensOf messages : Int) ≤ budget)
    (h1 : 1 ≤ cutAt (costAt messages) budget 9) :
    LargestFitting messages budget (cutAt (costAt messages) budget 9) := by
  have hfit := cutAt_fits h1
  have hle := cutAt_le (costAt messages) budget 9
  have hne : cutAt (costAt messages) budget 9 ≠ 9 := by
    intro h9
    rw [h9, costAt_nine messages (Nat.le_refl 9)] at hfit
    exact hover hfit
  refine ⟨h1, ?_, hfit, fun s hs hsfit => ?_⟩
  · by_contra habs
    -- with the cut tier absent the next stage would cost the same, and fit
    have heq : costAt messages (cutAt (costAt messages) budget 9)
        = costAt messages (cutAt (costAt messages) budget 9 + 1) :=
      costAt_eq_of_absent (Nat.le_succ _) h1 fun i hi hlt => by
        have : tierAt messages i ≠ cutAt (costAt messages) budget 9 := fun h => habs ⟨i, hi, h⟩
        omega
    have : cutAt (costAt messages) budget 9 + 1 ≤ cutAt (costAt messages) budget 9 :=
      le_cutAt (by omega) (by rw [← heq]; exact hfit)
    omega
  · obtain ⟨i, _, hi⟩ := hs
    have := tierAt_le messages i
    exact le_cutAt (by omega) hsfit

/-- The truncated tenth, as the floor on either side of zero. -/
theorem tenthOf_eq (w : Int) : tenthOf w = if 0 ≤ w then w / 10 else -((-w) / 10) := by
  unfold tenthOf
  split
  next hw => exact Int.tdiv_eq_ediv_of_nonneg hw
  next hw => rw [← Int.tdiv_eq_ediv_of_nonneg (by omega), Int.neg_tdiv, Int.neg_neg]

/-- A larger window is a larger budget. -/
theorem budgetOf_mono (maxOutputTokens : Int) {w w' : Int} (h : w ≤ w') :
    budgetOf w maxOutputTokens ≤ budgetOf w' maxOutputTokens := by
  unfold budgetOf
  rw [tenthOf_eq, tenthOf_eq]
  split <;> split <;> omega

theorem StreamBuilt.result_eq (h : StreamBuilt messages) :
    (applyContextBudget messages contextWindow maxOutputTokens saliences).result
      = keepAt messages
          (max 1 (cutAt (costAt messages) (budgetOf contextWindow maxOutputTokens) 9)) := by
  rw [applyContextBudget_of_none (rewrittenAt_of_absent saliences h.tierAt_ne_one)]
  rfl

/-- Over budget the result is the stage of the largest present tier that
fits, or the tier-0 messages. -/
theorem StreamBuilt.result_over (h : StreamBuilt messages) {budget : Int}
    (hover : ¬ (tokensOf messages : Int) ≤ budget) :
    (∃ t, LargestFitting messages budget t ∧
      keepAt messages (max 1 (cutAt (costAt messages) budget 9)) = keepAt messages t) ∨
    ((¬ ∃ t, LargestFitting messages budget t) ∧
      keepAt messages (max 1 (cutAt (costAt messages) budget 9)) = keepAt messages 1 ∧
      keepAt messages 1 = keepBy (fun i => tierAt messages i == 0) messages) := by
  rcases Nat.eq_zero_or_pos (cutAt (costAt messages) budget 9) with hzero | hpos
  · right
    refine ⟨?_, by rw [hzero]; rfl, keepBy_congr messages fun i hi => h.survives_one hi⟩
    intro ⟨t, h1, ⟨i, _, hi⟩, hfit, _⟩
    have := tierAt_le messages i
    have : t ≤ cutAt (costAt messages) budget 9 := le_cutAt (by omega) hfit
    omega
  · left
    exact ⟨_, largestFitting_cutAt hover hpos, by rw [Nat.max_eq_right hpos]⟩

/-- No stage drops a system message. -/
theorem StreamBuilt.filter_system (h : StreamBuilt messages) {t : Nat} (h1 : 1 ≤ t) :
    (keepAt messages t).filter (fun m => m.role = .system)
      = messages.filter (fun m => m.role = .system) := by
  refine filter_keepBy _ messages fun i m hm hsys => h.survives_of_tier_zero hm ?_ h1
  rw [tierAt_of_getElem? hm, messageTier_system (by simpa using hsys)]

/-- No stage drops the last message. -/
theorem StreamBuilt.getLast?_keepAt (h : StreamBuilt messages) {t : Nat} (h1 : 1 ≤ t) :
    (keepAt messages t).getLast? = messages.getLast? := by
  by_cases hnil : messages = []
  · rw [hnil]; rfl
  · have hpos := List.length_pos_of_ne_nil hnil
    refine keepBy_getLast? ?_
    exact h.survives_of_tier_zero (List.getElem?_eq_getElem (by omega))
      (tierAt_last (by omega)) h1

/-- What the allocator returns for every list as `generate_stream` builds it,
and what follows: a subsequence with all system messages and the last
message, which grows with the window. -/
theorem applyContextBudget_spec (messages : List Message) (contextWindow maxOutputTokens : Int)
    (saliences : Saliences) (h : StreamBuilt messages) :
    let budget := budgetOf contextWindow maxOutputTokens
    let result := (applyContextBudget messages contextWindow maxOutputTokens saliences).result
    ((tokensOf messages : Int) ≤ budget → result = messages) ∧
    (¬ (tokensOf messages : Int) ≤ budget →
      (∃ t, LargestFitting messages budget t ∧ result = keepAt messages t) ∨
      ((¬ ∃ t, LargestFitting messages budget t) ∧ result = keepAt messages 1 ∧
        keepAt messages 1 = keepBy (fun i => tierAt messages i == 0) messages)) ∧
    result.Sublist messages ∧
    result.filter (fun m => m.role = .system) = messages.filter (fun m => m.role = .system) ∧
    result.getLast? = messages.getLast? ∧
    ∀ largerWindow, contextWindow ≤ largerWindow →
      result.Sublist
        (applyContextBudget messages largerWindow maxOutputTokens saliences).result := by
  intro budget result
  have hresult : result = keepAt messages (max 1 (cutAt (costAt messages) budget 9)) :=
    h.result_eq
  have h1 : 1 ≤ max 1 (cutAt (costAt messages) budget 9) := Nat.le_max_left _ _
  refine ⟨applyContextBudget_of_tokens, fun hover => ?_, ?_, ?_, ?_, fun w' hw => ?_⟩
  · rw [hresult]
    exact h.result_over hover
  · rw [hresult]
    exact keepBy_sublist _ _
  · rw [hresult]
    exact h.filter_system h1
  · rw [hresult]
    exact h.getLast?_keepAt h1
  · rw [hresult, h.result_eq]
    refine keepAt_mono messages ?_
    exact max_le_max_left 1 (cutAt_mono (costAt messages) (budgetOf_mono maxOutputTokens hw) 9)

/-- A question with a long first exchange. -/
def longExchange : List Message :=
  [.ofText .system "Be brief.".toList, .ofText .user (List.replicate 80 'q'),
    .ofText .assistant (List.replicate 80 'a'), .ofText .user "And now?".toList]

theorem longExchange_streamBuilt : StreamBuilt longExchange where
  userState := by
    intro m hm s hs hstart
    rcases List.mem_cons.mp hm with rfl | hm
    · rfl
    · exfalso
      have hall : ∀ m ∈ longExchange.tail,
          (startsWith m.getContent.str "[USER STATE]".toList) = false := by decide
      have hno : startsWith s "[USER STATE]".toList = false := by
        simpa [hs, Content.str] using hall m hm
      exact absurd hstart (by rw [hno]; decide)
  last := by decide

theorem applyContextBudget_spec_longExchange :
    (applyContextBudget longExchange 40 10 []).result.getLast? = longExchange.getLast? :=
  (applyContextBudget_spec longExchange 40 10 [] longExchange_streamBuilt).2.2.2.2.1

/-! ## Idempotence and the caller's list -/

/-- Cutting out lines makes the text shorter. -/
theorem sum_filter_lt {keeps : Text → Bool} {ls : List Text} (h : ls.all keeps = false) :
    ((ls.filter keeps).map fun x => x.length + 1).sum < (ls.map fun x => x.length + 1).sum := by
  induction ls with
  | nil => exact absurd h (by simp)
  | cons l rest ih =>
    have hle : ((rest.filter keeps).map fun x => x.length + 1).sum
        ≤ (rest.map fun x => x.length + 1).sum :=
      totalWeight_le_of_sublist (fun x : Text => x.length + 1) List.filter_sublist
    cases hk : keeps l with
    | false =>
      rw [List.filter_cons_of_neg (by simp [hk]), List.map_cons, List.sum_cons]
      omega
    | true =>
      have hrest : rest.all keeps = false := by simpa [hk] using h
      rw [List.filter_cons_of_pos hk]
      have := ih hrest
      rw [List.map_cons, List.map_cons, List.sum_cons, List.sum_cons]
      omega

theorem rebuildUserState_of_split {content header : Text} {facts : List Text}
    (h : splitLines content = header :: facts) :
    rebuildUserState content saliences =
      if facts.all (keepsFact saliences) then none
      else some (strip (if header.isEmpty then joinLines (facts.filter (keepsFact saliences))
        else joinLines (header :: facts.filter (keepsFact saliences)))) := by
  unfold rebuildUserState
  rw [h]
  rfl

/-- A rebuilt user state is strictly shorter. -/
theorem rebuildUserState_length {content r : Text} (h : rebuildUserState content saliences = some r) :
    r.length < content.length := by
  obtain ⟨header, facts, hsplit⟩ := List.exists_cons_of_ne_nil (splitLines_ne_nil content)
  have hcontent : content.length = header.length + (facts.map fun x => x.length + 1).sum := by
    rw [← joinLines_length, ← hsplit, joinLines_splitLines]
  rw [rebuildUserState_of_split hsplit] at h
  split at h
  next => exact absurd h (by simp)
  next hall =>
    have hlt := sum_filter_lt (by simpa using hall : facts.all (keepsFact saliences) = false)
    rw [← Option.some.inj h]
    refine Nat.lt_of_le_of_lt (strip_length_le _) ?_
    split
    next =>
      cases hhigh : facts.filter (keepsFact saliences) with
      | nil =>
        show 0 < _
        omega
      | cons l rest =>
        rw [hhigh, List.map_cons, List.sum_cons] at hlt
        rw [joinLines_length]
        omega
    next =>
      rw [joinLines_length]
      omega

/-- A slot that is rewritten holds a longer text. -/
theorem rewrittenAt_spec {i : Nat} {s : Text} (h : rewrittenAt messages saliences i = some s) :
    ∃ m c, messages[i]? = some m ∧ m.getContent = .text c ∧ s.length < c.length := by
  unfold rewrittenAt at h
  split at h
  next => exact absurd h (by simp)
  next =>
    obtain ⟨hr, _⟩ := Option.filter_eq_some_iff.mp h
    unfold rebuiltAt at hr
    split at hr
    next m _ hm =>
      split at hr
      next c hc => exact ⟨m, c, hm, hc, rebuildUserState_length hr⟩
      next => exact absurd hr (by simp)
    next => exact absurd hr (by simp)

/-- A rewritten slot is a changed slot. -/
theorem userStateTrim_slot_ne {i : Nat} (h : (rewrittenAt messages saliences i).isSome) :
    (userStateTrim messages saliences).messages[i]? ≠ messages[i]? := by
  intro heq
  obtain ⟨s, hs⟩ := Option.isSome_iff_exists.mp h
  obtain ⟨m, c, hm, hc, hlt⟩ := rewrittenAt_spec hs
  have hslot : (userStateTrim messages saliences).messages[i]? = some (m.setContent s) := by
    simp [userStateTrim, List.getElem?_mapIdx, hm, hs]
  rw [heq, hm] at hslot
  have : Content.text c = .text s := by
    rw [← hc, Option.some.inj hslot]
    rfl
  rw [Content.text.inj this] at hlt
  omega

/-- A tier-0 message that is not the last one is of tier 0 anywhere. -/
theorem messageTier_of_not_last {m : Message} (h : messageTier m false = 0) (isLast : Bool) :
    messageTier m isLast = 0 := by
  cases isLast with
  | false => exact h
  | true => rfl

/-- What is left at stage 1 is of tier 0 again in the shorter list. -/
theorem tierAt_keepAt_one (messages : List Message) (i : Nat) :
    tierAt (keepAt messages 1) i = 0 := by
  rcases List.eq_nil_or_concat messages with hnil | ⟨front, last, hxs⟩
  · rw [hnil]; rfl
  · rw [List.concat_eq_append] at hxs
    -- a message that was not last keeps its tier 0 wherever it stands
    have hfront : ∀ m ∈ keepBy (survives messages 1) front, messageTier m false = 0 := by
      intro m hm
      obtain ⟨j, hs, hj⟩ := mem_keepBy.mp hm
      have hlt := (List.getElem?_eq_some_iff.mp hj).1
      have hmj : messages[j]? = some m := by rw [hxs, List.getElem?_append_left hlt]; exact hj
      have h0 := (survives_iff.mp hs).1
      rw [tierAt_of_getElem? hmj, hxs,
        show (j + 1 == (front ++ [last]).length) = false by simp; omega] at h0
      omega
    have hkeep : keepAt messages 1 = keepBy (survives messages 1) front
        ++ keepBy (fun i => survives messages 1 (front.length + i)) [last] := by
      have happ := keepBy_append (survives messages 1) front [last]
      rw [← hxs] at happ
      exact happ
    rw [hkeep]
    cases hl : survives messages 1 (front.length + 0) with
    | false =>
      rw [keepBy_cons_neg hl, keepBy_nil, List.append_nil]
      unfold tierAt
      split
      next m hm => exact messageTier_of_not_last (hfront m (List.mem_of_getElem? hm)) _
      next => rfl
    | true =>
      rw [keepBy_cons_pos hl, keepBy_nil]
      by_cases hi : i < (keepBy (survives messages 1) front).length
      · have hm := List.getElem?_eq_getElem hi
        rw [tierAt_of_getElem? (by rw [List.getElem?_append_left hi]; exact hm)]
        exact messageTier_of_not_last (hfront _ (List.getElem_mem hi)) _
      -- the last message is of tier 0 by its place
      · by_cases hlast : i = (keepBy (survives messages 1) front).length
        · exact tierAt_last (by simp [hlast])
        · unfold tierAt
          rw [List.getElem?_eq_none (by simp; omega)]

/-- A list of tier 0 is kept whole. -/
theorem keepAt_of_tier_zero {t : Nat} (h : ∀ i, tierAt messages i = 0) (h1 : 1 ≤ t) :
    keepAt messages t = messages := by
  apply keepBy_all messages
  intro i _
  rw [survives_iff, h]
  refine ⟨h1, fun j hj => ?_⟩
  rw [h] at hj
  omega

/-- Trimming a stage that fits, or the last stage, again changes nothing. -/
theorem applyContextBudget_keepAt :
    (applyContextBudget
        (keepAt messages (max 1 (cutAt (costAt messages)
          (budgetOf contextWindow maxOutputTokens) 9)))
        contextWindow maxOutputTokens saliences).result
      = keepAt messages (max 1 (cutAt (costAt messages)
          (budgetOf contextWindow maxOutputTokens) 9)) := by
  rcases Nat.eq_zero_or_pos
      (cutAt (costAt messages) (budgetOf contextWindow maxOutputTokens) 9) with hzero | hpos
  · rw [hzero, show max 1 0 = 1 from rfl]
    have htier := tierAt_keepAt_one messages
    rw [applyContextBudget_of_none (rewrittenAt_of_absent saliences fun i => by rw [htier]; omega)]
    exact keepAt_of_tier_zero htier (Nat.le_max_left _ _)
  · rw [Nat.max_eq_right hpos]
    exact applyContextBudget_of_tokens (cutAt_fits hpos)

/-- The list passed in is unchanged, and a second run returns the same list. -/
def Stable (messages : List Message) (contextWindow maxOutputTokens : Int)
    (saliences : Saliences) : Prop :=
  let trim := applyContextBudget messages contextWindow maxOutputTokens saliences
  trim.messages = messages ∧
    (applyContextBudget trim.result contextWindow maxOutputTokens saliences).result = trim.result

/-- The allocator leaves its input alone and is idempotent exactly when it
does not come to rewrite a message: stage 2 fits, or no tier-1 message, and
no ack of one, has a fact of low salience and something left without it. -/
theorem applyContextBudget_stable_iff (messages : List Message)
    (contextWindow maxOutputTokens : Int) (saliences : Saliences) :
    Stable messages contextWindow maxOutputTokens saliences ↔
      (costAt messages 2 : Int) ≤ budgetOf contextWindow maxOutputTokens ∨
        ∀ i, rewrittenAt messages saliences i = none := by
  refine ⟨fun ⟨hsame, _⟩ => ?_, fun h => ?_⟩
  · by_cases hfit : (costAt messages 2 : Int) ≤ budgetOf contextWindow maxOutputTokens
    · exact Or.inl hfit
    · right
      intro i
      cases hr : rewrittenAt messages saliences i with
      | none => rfl
      | some s =>
        -- a rebuilt user state is shorter, so the slot has changed
        have hslot : (userStateTrim messages saliences).messages[i]? ≠ messages[i]? :=
          userStateTrim_slot_ne (by rw [hr]; rfl)
        rw [applyContextBudget_of_over hfit] at hsame
        exact absurd (by rw [hsame]) hslot
  · have htrim : applyContextBudget messages contextWindow maxOutputTokens saliences
        = ⟨messages, survives messages
          (max 1 (cutAt (costAt messages) (budgetOf contextWindow maxOutputTokens) 9))⟩ := by
      rcases h with hfit | hnone
      · have h2 : 2 ≤ cutAt (costAt messages) (budgetOf contextWindow maxOutputTokens) 9 :=
          le_cutAt (by omega) hfit
        rw [applyContextBudget_of_fits hfit, Nat.max_eq_right (by omega)]
      · exact applyContextBudget_of_none hnone
    unfold Stable
    rw [htrim]
    exact ⟨rfl, applyContextBudget_keepAt⟩

/-- A conversation in which the user has typed a user state. -/
def typedUserState : List Message :=
  [.ofText .system "Be brief.".toList, .ofText .user "[USER STATE]\n- a\n- b".toList,
    .ofText .assistant "Noted.".toList, .ofText .user "And now?".toList]

/-- Without `- a` the typed block is rewritten in the caller's list, and the
next run, with nothing left to cut, drops what the first one kept. -/
theorem typedUserState_not_stable :
    (applyContextBudget typedUserState 3 0 [("- a".toList, 0)]).messages ≠ typedUserState ∧
    (applyContextBudget (applyContextBudget typedUserState 3 0 [("- a".toList, 0)]).result
        3 0 [("- a".toList, 0)]).result
      ≠ (applyContextBudget typedUserState 3 0 [("- a".toList, 0)]).result := by
  decide +kernel

end Eidetic.Context
