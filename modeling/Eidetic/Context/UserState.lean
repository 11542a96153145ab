import Eidetic.Context.Build
import Eidetic.Context.Spec

/-!
# The `[USER STATE]` block under pressure

The builder injects the user state as a system message, and `_message_tier`
answers 0 for those before it looks at any prefix. So the partial drop of
tier 1 never sees the block: however small the window, it survives whole, with
the facts of low salience that should have given way
(`userStateGivesWay_iff`).

The block is injected with the facts that the sheet shows, in their order
(`shownFacts_userState`); what has a low salience among them is what should give
way. The stage of the allocator that cuts such lines looks for messages of tier
1, and a system message is of tier 0 (`filter_userStateTrim`). So the result has
the block as it was injected (`filter_result`), and shows the salient facts
alone exactly when the sheet has no others.

The hypothesis is that tiers 2 to 8 do not bring the list within the budget,
which is when the source comes to the stage. No other part of the context is a
user state (`filter_contextHead`, `filter_contextTail`), so the statement is
about all the blocks of a result.
-/

namespace Eidetic.Context

open Eidetic.Lib Eidetic.Py

variable {messages : List Message} {contextWindow maxOutputTokens : Int} {saliences : Saliences}

/-! ## Facts -/

/-- The facts of a memory sheet: its lines, stripped, without the blank ones. -/
def factsOf (sheet : Text) : List Text :=
  ((splitLines sheet).map strip).filter fun f => !f.isEmpty

/-- The facts that should survive: salience at least one half. -/
def salientFacts (saliences : Saliences) (sheet : Text) : List Text :=
  (factsOf sheet).filter fun f => decide (1 / 2 ≤ salienceOf saliences f)

/-- The user-state block the builder injects. -/
def isUserState (m : Message) : Bool :=
  m.role == .system && match m.getContent with
    | .text s => startsWith s "[USER STATE]".toList
    | .parts _ => false

/-- The facts a user-state block shows: those of the lines after its header. -/
def shownFacts (m : Message) : List Text :=
  match m.getContent with
  | .text s => factsOf (joinLines (splitLines s).tail)
  | .parts _ => []

/-- A blank sheet has no facts, and any other has some. -/
theorem factsOf_eq_nil {sheet : Text} : factsOf sheet = [] ↔ strip sheet = [] := by
  unfold factsOf
  rw [List.filter_eq_nil_iff, strip_eq_nil]
  constructor
  · intro h c hc
    by_cases hbreak : c = '\n'
    · rw [hbreak]; decide
    · rw [← joinLines_splitLines sheet, mem_joinLines hbreak] at hc
      obtain ⟨l, hl, hcl⟩ := hc
      have hblank : strip l = [] := by
        simpa using h (strip l) (List.mem_map.mpr ⟨l, hl, rfl⟩)
      exact strip_eq_nil.mp hblank c hcl
  · intro h f hf
    obtain ⟨l, hl, rfl⟩ := List.mem_map.mp hf
    have hblank : strip l = [] := by
      rw [strip_eq_nil]
      intro c hc
      by_cases hbreak : c = '\n'
      · rw [hbreak]; decide
      · exact h c (by rw [← joinLines_splitLines sheet, mem_joinLines hbreak]; exact ⟨l, hl, hc⟩)
    simp [hblank]

theorem splitLines_userState (s : Text) :
    splitLines ("[USER STATE]\n".toList ++ s) = "[USER STATE]".toList :: splitLines s := by
  simp [splitLines, List.splitOn, List.splitOnP_cons_eq_if_modifyHead]

theorem shownFacts_userState (s : Text) :
    shownFacts (.ofText .system ("[USER STATE]\n".toList ++ s)) = factsOf s := by
  unfold shownFacts
  rw [Message.ofText_getContent]
  show factsOf (joinLines (splitLines _).tail) = _
  rw [splitLines_userState, List.tail_cons, joinLines_splitLines]

/-! ## System messages are kept as they are -/

/-- What the user-state stage leaves of the system messages is all of them,
and it turns no other message into one. -/
theorem filter_userStateTrim {p : Message → Bool} (hp : ∀ m, p m = true → m.role = .system) :
    (userStateTrim messages saliences).result.filter p = messages.filter p := by
  have hno : ∀ m : Message, m.role ≠ .system → p m = false := by
    intro m hrole
    cases h : p m with
    | false => rfl
    | true => exact absurd (hp m h) hrole
  -- a slot the stage writes keeps its role, and a system slot is not written
  have hslots : (userStateTrim messages saliences).messages.filter p = messages.filter p := by
    apply filter_mapIdx p messages
    intro i m hm
    by_cases hrole : m.role = .system
    · left
      rw [rewrittenAt_of_not_dropSet (system_survives hm hrole).1, Message.update_none]
    · right
      exact ⟨hno m hrole, hno _ (by rw [Message.update_role]; exact hrole)⟩
  rw [← hslots]
  apply filter_keepBy p _
  intro i m hm hpm
  show ((rewrittenAt messages saliences i).isSome || survives messages 1 i) = true
  obtain ⟨m', hm', hrole⟩ : ∃ m', messages[i]? = some m' ∧ m'.role = m.role := by
    have hslot : (messages.mapIdx _)[i]? = some m := hm
    rw [List.getElem?_mapIdx] at hslot
    obtain ⟨m', hm', heq⟩ := Option.map_eq_some_iff.mp hslot
    exact ⟨m', hm', by rw [← heq, Message.update_role]⟩
  rw [(system_survives hm' (by rw [hrole]; exact hp m hpm)).2, Bool.or_true]

/-! ## The block in the built context -/

/-- Without a memory sheet there is nothing to show. -/
theorem strip_filteredSheet_of_empty {a : ContextInput} (h : a.memorySheet = []) :
    strip (filteredSheet a) = [] := by
  unfold filteredSheet
  rw [h]
  split
  next => rfl
  next =>
    show strip (joinLines (List.filter _ [[]])) = []
    rw [List.filter_cons]
    split
    next => rfl
    next => rfl

theorem isUserState_role {m : Message} (h : isUserState m = true) : m.role = .system := by
  unfold isUserState at h
  simp only [Bool.and_eq_true, beq_iff_eq] at h
  exact h.1

/-- No part of the context but the user state itself is a user-state block. -/
theorem filter_contextHead (a : ContextInput) :
    (contextHead a).filter isUserState = userState a := by
  have hblock : ∀ isPresent content ack,
      (contextBlock isPresent content ack).filter isUserState = [] := by
    intro isPresent content ack
    unfold contextBlock
    split
    next => rfl
    next => rfl
  have hstate : (userState a).filter isUserState = userState a := by
    unfold userState
    split
    next => rfl
    next => rfl
  simp [contextHead, blocksBefore, blocksAfter, hblock, hstate]

theorem filter_contextTail (a : ContextInput) : (contextTail a).filter isUserState = [] := by
  unfold contextTail contextBlock
  cases a.intent <;> cases a.fileChunks <;> rfl

theorem preamble_not_userState (a : ContextInput) :
    isUserState (.ofText .system (preamble a)) = false := rfl

theorem filter_baseMessages {a : ContextInput} {rules : List Text} {rest : List Message}
    (hother : ∀ m ∈ rules.map (.ofText .system) ++ a.history ++ rest, isUserState m = false) :
    (baseMessages a rules rest).filter isUserState = userState a := by
  have hnil : ∀ ms : List Message, (∀ m ∈ ms, isUserState m = false) →
      ms.filter isUserState = [] := by
    intro ms h
    rw [List.filter_eq_nil_iff]
    intro m hm
    simp [h m hm]
  have hrules := hnil (rules.map (.ofText .system)) fun m hm => hother m (by simp [hm])
  have hhistory := hnil a.history fun m hm => hother m (by simp [hm])
  have hrest := hnil rest fun m hm => hother m (by simp [hm])
  rw [baseMessages_eq]
  simp [preamble_not_userState, hrules, hhistory, hrest, filter_contextHead, filter_contextTail]

/-- Over budget at stage 2 the result has the user state as it was injected. -/
theorem filter_result {a : ContextInput} {rules : List Text} {rest : List Message}
    (hother : ∀ m ∈ rules.map (.ofText .system) ++ a.history ++ rest, isUserState m = false)
    (hover : ¬ (costAt (baseMessages a rules rest) 2 : Int)
      ≤ budgetOf contextWindow maxOutputTokens) :
    (applyContextBudget (baseMessages a rules rest) contextWindow maxOutputTokens
      saliences).result.filter isUserState = userState a := by
  rw [applyContextBudget_of_over hover, filter_userStateTrim fun _ => isUserState_role,
    filter_baseMessages hother]

/-- The user-state blocks of a result show exactly the salient facts of the
sheet: one block with these, in order, or none when there are none. -/
def UserStateGivesWay (a : ContextInput) (saliences : Saliences) (result : List Message) : Prop :=
  let salient := salientFacts saliences (filteredSheet a)
  (salient = [] → result.filter isUserState = []) ∧
  (salient ≠ [] → ∃ block, result.filter isUserState = [block] ∧ shownFacts block = salient)

/-- Once tiers 2 to 8 do not bring the list within the budget, the user state
shows the salient facts alone exactly when it had no others: for the builder's
system block nothing is ever cut. -/
theorem userStateGivesWay_iff (a : ContextInput) (rules : List Text) (rest : List Message)
    (contextWindow maxOutputTokens : Int) (saliences : Saliences)
    (hother : ∀ m ∈ rules.map (.ofText .system) ++ a.history ++ rest, isUserState m = false)
    (hover : ¬ (costAt (baseMessages a rules rest) 2 : Int)
      ≤ budgetOf contextWindow maxOutputTokens) :
    UserStateGivesWay a saliences
        (applyContextBudget (baseMessages a rules rest) contextWindow maxOutputTokens
          saliences).result ↔
      ∀ fact ∈ factsOf (filteredSheet a), 1 / 2 ≤ salienceOf saliences fact := by
  have hall : salientFacts saliences (filteredSheet a) = factsOf (filteredSheet a) ↔
      ∀ fact ∈ factsOf (filteredSheet a), 1 / 2 ≤ salienceOf saliences fact := by
    unfold salientFacts
    rw [List.filter_eq_self]
    simp
  rw [← hall]
  unfold UserStateGivesWay
  rw [filter_result hother hover]
  by_cases hblank : strip (filteredSheet a) = []
  · -- no block was injected, and there is no fact to show
    have hnone : userState a = [] := by
      unfold userState
      rw [hblank]
      simp
    have hfacts := factsOf_eq_nil.mpr hblank
    simp [hnone, salientFacts, hfacts]
  · have hfacts : factsOf (filteredSheet a) ≠ [] := fun h => hblank (factsOf_eq_nil.mp h)
    have hone : userState a = [.ofText .system ("[USER STATE]\n".toList ++ filteredSheet a)] := by
      unfold userState
      rw [if_neg]
      simp only [Bool.or_eq_true, List.isEmpty_iff]
      intro h
      rcases h with hsheet | hstrip
      · exact hblank (strip_filteredSheet_of_empty hsheet)
      · exact hblank hstrip
    rw [hone]
    refine ⟨fun ⟨hempty, hsome⟩ => ?_, fun heq => ?_⟩
    · by_cases hnil : salientFacts saliences (filteredSheet a) = []
      · exact absurd (hempty hnil) (by simp)
      · obtain ⟨block, hblock, hshown⟩ := hsome hnil
        rw [← hshown, ← List.singleton_inj.mp hblock, shownFacts_userState]
    · refine ⟨fun hnil => absurd (heq ▸ hnil) hfacts, fun _ => ⟨_, rfl, ?_⟩⟩
      rw [shownFacts_userState, heq]

/-- A sheet with one fact of salience 0. -/
def fadedFact : ContextInput where
  memorySheet := "- likes tea".toList
  projectSummary := []
  retrievedChunks := []
  historySummary := []
  history := []
  intent := .other

theorem fadedFact_over :
    ¬ (costAt (baseMessages fadedFact [] [.ofText .user "Hi".toList]) 2 : Int) ≤ budgetOf 5 0 := by
  have hrest : costAt ((baseMessages fadedFact [] [.ofText .user "Hi".toList]).drop 1) 2 = 7 := by
    decide
  have hsplit : baseMessages fadedFact [] [.ofText .user "Hi".toList]
      = .ofText .system (preamble fadedFact)
        :: (baseMessages fadedFact [] [.ofText .user "Hi".toList]).drop 1 := rfl
  rw [hsplit, costAt_cons_system rfl _ (by decide), hrest]
  show ¬ ((messageTokens _ + 7 : Nat) : Int) ≤ 5
  omega

/-- The faded fact is still shown at the smallest window. -/
theorem fadedFact_stays :
    ¬ (costAt (baseMessages fadedFact [] [.ofText .user "Hi".toList]) 2 : Int) ≤ budgetOf 5 0 ∧
    ¬ UserStateGivesWay fadedFact [("- likes tea".toList, 0)]
      (applyContextBudget (baseMessages fadedFact [] [.ofText .user "Hi".toList]) 5 0
        [("- likes tea".toList, 0)]).result := by
  refine ⟨fadedFact_over, fun h => ?_⟩
  have hsalient : salientFacts [("- likes tea".toList, 0)] (filteredSheet fadedFact) = [] := by
    decide +kernel
  have hgone := h.1 hsalient
  rw [filter_result (by decide) fadedFact_over] at hgone
  revert hgone
  decide

/-- With the same fact in favour the block rightly stays as it is. -/
theorem fadedFact_in_favour :
    UserStateGivesWay fadedFact [("- likes tea".toList, 1)]
      (applyContextBudget (baseMessages fadedFact [] [.ofText .user "Hi".toList]) 5 0
        [("- likes tea".toList, 1)]).result :=
  (userStateGivesWay_iff fadedFact [] [.ofText .user "Hi".toList] 5 0 _ (by decide)
    fadedFact_over).mpr (by decide +kernel)

end Eidetic.Context
