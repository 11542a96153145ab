import Eidetic.Context.Build
import Eidetic.Context.Spec

/-!
# Blocks and their acknowledgements

An acknowledgement is itself of tier 6, so the block it follows, when it is of
a lower tier, outlives it at every stage between the two. `PairAt` is a block
with its ack, `PairAt.keep_block` and `PairAt.keep_ack` say when each of them
is kept, and `pairsKeptTogether_iff` puts this together for the context
`generate_stream` builds: the pairs stay together exactly when the cut does
not fall between a block's tier and tier 6.

A tier is dropped together with the acks of its messages, found by scanning
forward. For a pair the scan finds the right ack: from the block it is the next
message, and a scan from further up ends at the block, which is a user's message
(`PairAt.acked_by_block`). So at each stage the block is kept by its own tier
and the ack by the lower of the two tiers, unless it is the last message; a pair
is split exactly when its block outlives tier 6 (`PairAt.keep_eq_iff`).

That the built context consists of such pairs is `contextHead_paired` and
`contextTail_paired` of `Context.Build`; `pairAt_of_injectedAt` carries it to
positions of the whole list, behind the preamble, the rules and the history. The
theorem then speaks of every injected block at once, and a kept pair is still a
pair of neighbours, since nothing between the two can be left
(`PairAt.adjacent`).
-/

namespace Eidetic.Context

open Eidetic.Lib Eidetic.Py

variable {messages : List Message} {contextWindow maxOutputTokens : Int} {saliences : Saliences}

/-! ## A pair under a stage -/

/-- A user block above tier 1, its acknowledgement directly after it. -/
structure PairAt (messages : List Message) (i : Nat) : Prop where
  block : ∃ m, messages[i]? = some m ∧ m.role = .user ∧ 2 ≤ messageTier m false
  ack : ∃ m, messages[i + 1]? = some m ∧ isAck m = true

theorem textTier_understood {s : Text} (h : startsWith s "Understood".toList = true) :
    textTier s = 6 := by
  obtain ⟨rest, rfl⟩ := startsWith_iff.mp h
  rfl

/-- The ack of a pair is of tier 6, unless it is the last message. -/
theorem PairAt.tierAt_ack {i : Nat} (h : PairAt messages i) :
    tierAt messages (i + 1) = if i + 2 = messages.length then 0 else 6 := by
  obtain ⟨m, hm, hack⟩ := h.ack
  split
  next hlast => exact tierAt_last hlast
  next hlast =>
    obtain ⟨s, hs, hstart⟩ := isAck_text hack
    have hcontent : m.getContent = .text s := by rw [Message.getContent, hs]; rfl
    rw [tierAt_of_getElem? hm, show (i + 1 + 1 == messages.length) = false by simpa using hlast]
    unfold messageTier
    rw [hcontent]
    simp [isAck_role hack, textTier_understood hstart]

theorem PairAt.tierAt_block {i : Nat} (h : PairAt messages i) : 2 ≤ tierAt messages i := by
  obtain ⟨m, hm, _, htier⟩ := h.block
  obtain ⟨k, hk, _⟩ := h.ack
  have hlt := (List.getElem?_eq_some_iff.mp hk).1
  rw [tierAt_of_getElem? hm, show (i + 1 == messages.length) = false by simp; omega]
  exact htier

theorem PairAt.block_not_ack {i : Nat} (h : PairAt messages i) (p : Nat → Bool) :
    ackedFrom messages p i = false := by
  obtain ⟨m, hm, hrole, _⟩ := h.block
  exact ackedFrom_eq_false hm (isAck_of_role_ne (by rw [hrole]; decide))

/-- The ack of a pair is found for its block and for no other message: the
scan from further up ends at the block. -/
theorem PairAt.acked_by_block {i : Nat} (h : PairAt messages i) (p : Nat → Bool) :
    ackedFrom messages p (i + 1) = p (tierAt messages i) := by
  obtain ⟨b, hb, hrole, _⟩ := h.block
  obtain ⟨m, hm, hack⟩ := h.ack
  have hlt := (List.getElem?_eq_some_iff.mp hb).1
  rw [Bool.eq_iff_iff, ackedFrom_iff]
  refine ⟨fun ⟨j, _, hp, hidx⟩ => ?_, fun hp => ⟨i, hlt, hp, ackIdx_of_next hm hack⟩⟩
  obtain ⟨hji, _, hpass⟩ := ackIdx_spec hidx
  rcases Nat.lt_or_ge j i with hlt | hge
  · have := hpass i b hlt (by omega) hb
    rw [hrole] at this
    exact absurd this (by simp)
  · rw [show i = j by omega]
    exact hp

theorem PairAt.survives_ack {i : Nat} (h : PairAt messages i) (t : Nat) :
    survives messages t (i + 1)
      = (decide (tierAt messages (i + 1) < t) && decide (tierAt messages i < t)) := by
  unfold survives
  rw [h.acked_by_block]
  congr 1
  rw [Bool.eq_iff_iff]
  simp

theorem PairAt.dropSet_block {i : Nat} (h : PairAt messages i) : dropSet messages 1 i = false := by
  have htier := h.tierAt_block
  unfold dropSet
  rw [h.block_not_ack]
  simp
  omega

theorem PairAt.dropSet_ack {i : Nat} (h : PairAt messages i) :
    dropSet messages 1 (i + 1) = false := by
  have htier := h.tierAt_block
  unfold dropSet
  rw [h.acked_by_block, h.tierAt_ack]
  split <;> simp <;> omega

theorem PairAt.keep_block {i : Nat} (h : PairAt messages i) :
    (applyContextBudget messages contextWindow maxOutputTokens saliences).keep i = true ↔
      (costAt messages (tierAt messages i + 1) : Int) ≤ budgetOf contextWindow maxOutputTokens := by
  have htier := h.tierAt_block
  obtain ⟨m, hm, hrole, _⟩ := h.block
  rw [keep_iff_of_not_isAck hm (isAck_of_role_ne (by rw [hrole]; decide)),
    rewrittenAt_of_not_dropSet h.dropSet_block]
  simp
  omega

/-- The ack is kept as long as its block is and, unless it is the last
message, tier 6 is. -/
theorem PairAt.keep_ack {i : Nat} (h : PairAt messages i) :
    (applyContextBudget messages contextWindow maxOutputTokens saliences).keep (i + 1) = true ↔
      (costAt messages (tierAt messages i + 1) : Int) ≤ budgetOf contextWindow maxOutputTokens ∧
      (i + 2 = messages.length ∨
        (costAt messages 7 : Int) ≤ budgetOf contextWindow maxOutputTokens) := by
  have htier := h.tierAt_block
  have hle := tierAt_le messages i
  have hcut : ∀ t, 1 ≤ t → t ≤ 9 →
      (t ≤ cutAt (costAt messages) (budgetOf contextWindow maxOutputTokens) 9 ↔
        (costAt messages t : Int) ≤ budgetOf contextWindow maxOutputTokens) :=
    fun t h1 ht => le_cutAt_iff (costAt_mono messages) h1 ht
  rw [keep_of_not_dropSet h.dropSet_ack, h.survives_ack, h.tierAt_ack, ← hcut _ (by omega) (by omega),
    ← hcut 7 (by omega) (by omega)]
  split
  next hlast => simp [hlast]; omega
  next hlast => simp [hlast]; omega

/-- A pair is split exactly when its block outlives tier 6. -/
theorem PairAt.keep_eq_iff {i : Nat} (h : PairAt messages i) :
    (applyContextBudget messages contextWindow maxOutputTokens saliences).keep i
        = (applyContextBudget messages contextWindow maxOutputTokens saliences).keep (i + 1) ↔
      (costAt messages 7 : Int) ≤ budgetOf contextWindow maxOutputTokens ∨
        i + 2 = messages.length ∨ 5 < tierAt messages i ∨
        ¬ (costAt messages (tierAt messages i + 1) : Int)
          ≤ budgetOf contextWindow maxOutputTokens := by
  rw [Bool.eq_iff_iff, h.keep_block, h.keep_ack]
  refine ⟨fun heq => ?_, fun hcond => ⟨fun hfit => ⟨hfit, ?_⟩, fun hfit => hfit.1⟩⟩
  · by_cases hfit : (costAt messages (tierAt messages i + 1) : Int)
        ≤ budgetOf contextWindow maxOutputTokens
    · rcases (heq.mp hfit).2 with hend | h7
      · exact Or.inr (Or.inl hend)
      · exact Or.inl h7
    · exact Or.inr (Or.inr (Or.inr hfit))
  · rcases hcond with h7 | hend | htier | hgone
    · exact Or.inr h7
    · exact Or.inl hend
    · -- a block of tier 6 or above that stays leaves tier 6 fitting
      right
      have := costAt_mono messages (by omega : 7 ≤ tierAt messages i + 1)
      omega
    · exact absurd hfit hgone

/-- A kept pair is a pair of neighbours in the result. -/
theorem PairAt.adjacent {i : Nat} (h : PairAt messages i) {trim : Trim}
    (htrim : trim = applyContextBudget messages contextWindow maxOutputTokens saliences)
    (hblock : trim.keep i = true) (hack : trim.keep (i + 1) = true) :
    ∃ block ack post, messages[i]? = some block ∧ messages[i + 1]? = some ack ∧
      trim.result = keepBy trim.keep (trim.messages.take i) ++ block :: ack :: post := by
  obtain ⟨block, hb, _, _⟩ := h.block
  obtain ⟨ack, ha, _⟩ := h.ack
  have hb' : trim.messages[i]? = some block := by
    rw [htrim, messages_of_not_dropSet h.dropSet_block]
    exact hb
  have ha' : trim.messages[i + 1]? = some ack := by
    rw [htrim, messages_of_not_dropSet h.dropSet_ack]
    exact ha
  obtain ⟨post, hpost⟩ := keepBy_pair hb' ha' hblock hack
  exact ⟨block, ack, post, hb, ha, hpost⟩

/-! ## The pairs of the built context -/

/-- The index of an injected block: a user message of the part before the
history or of the part after it. -/
def InjectedAt (a : ContextInput) (rules : List Text) (i : Nat) : Prop :=
  (∃ j m, i = 1 + rules.length + j ∧ (contextHead a)[j]? = some m ∧ m.role = .user) ∨
  (∃ j m, i = 1 + rules.length + (contextHead a).length + a.history.length + j ∧
    (contextTail a)[j]? = some m ∧ m.role = .user)

/-- What lies behind a part of the built context that is paired. -/
theorem pairAt_of_paired {ms : List Message} (h : Paired ms) {j : Nat} {m : Message}
    (hm : ms[j]? = some m) (hrole : m.role = .user) (pre post : List Message) :
    PairAt (pre ++ ms ++ post) (pre.length + j) := by
  obtain ⟨htier, ack, hack, his⟩ := h j m hm hrole
  have hlt := (List.getElem?_eq_some_iff.mp hack).1
  have hget : ∀ k, k < ms.length → (pre ++ ms ++ post)[pre.length + k]? = ms[k]? := by
    intro k hk
    rw [List.append_assoc, List.getElem?_append_right (by omega),
      List.getElem?_append_left (by omega), Nat.add_sub_cancel_left]
  exact ⟨⟨m, by rw [hget j (by omega)]; exact hm, hrole, htier⟩,
    ⟨ack, by rw [Nat.add_assoc, hget (j + 1) hlt]; exact hack, his⟩⟩

theorem pairAt_of_injectedAt {a : ContextInput} {rules : List Text} (rest : List Message) {i : Nat}
    (h : InjectedAt a rules i) : PairAt (baseMessages a rules rest) i := by
  rw [baseMessages_eq]
  have hstart : (Message.ofText .system (preamble a) :: rules.map (.ofText .system)).length
      = 1 + rules.length := by simp [Nat.add_comm]
  rcases h with ⟨j, m, hi, hm, hrole⟩ | ⟨j, m, hi, hm, hrole⟩
  · have hpair := pairAt_of_paired (contextHead_paired a) hm hrole
      (.ofText .system (preamble a) :: rules.map (.ofText .system))
      (a.history ++ contextTail a ++ rest)
    rw [hstart, ← hi] at hpair
    simpa using hpair
  · have hpair := pairAt_of_paired (contextTail_paired a) hm hrole
      ((.ofText .system (preamble a) :: rules.map (.ofText .system)) ++ contextHead a ++ a.history)
      rest
    rw [List.length_append, List.length_append, hstart, ← hi] at hpair
    exact hpair

/-- Every injected block is kept exactly when its acknowledgement is, and a
kept pair is still a pair of neighbours. -/
def PairsKeptTogether (a : ContextInput) (rules : List Text) (rest : List Message)
    (contextWindow maxOutputTokens : Int) (saliences : Saliences) : Prop :=
  let messages := baseMessages a rules rest
  let trim := applyContextBudget messages contextWindow maxOutputTokens saliences
  ∀ i, InjectedAt a rules i →
    trim.keep i = trim.keep (i + 1) ∧
    (trim.keep i = true → ∃ block ack post,
      messages[i]? = some block ∧ messages[i + 1]? = some ack ∧
      trim.result = keepBy trim.keep (trim.messages.take i) ++ block :: ack :: post)

/-- The pairs stay together exactly when tier 6 fits, or every injected block
of a lower tier (but for one whose ack ends the list) has to go as well. -/
theorem pairsKeptTogether_iff (a : ContextInput) (rules : List Text) (rest : List Message)
    (contextWindow maxOutputTokens : Int) (saliences : Saliences) :
    let messages := baseMessages a rules rest
    let budget := budgetOf contextWindow maxOutputTokens
    PairsKeptTogether a rules rest contextWindow maxOutputTokens saliences ↔
      (costAt messages 7 : Int) ≤ budget ∨
        ∀ i, InjectedAt a rules i → i + 2 ≠ messages.length → tierAt messages i ≤ 5 →
          ¬ (costAt messages (tierAt messages i + 1) : Int) ≤ budget := by
  intro messages budget
  constructor
  · intro h
    by_cases h7 : (costAt messages 7 : Int) ≤ budget
    · exact Or.inl h7
    · right
      intro i hi hlast htier hfit
      rcases (pairAt_of_injectedAt rest hi).keep_eq_iff.mp (h i hi).1 with h6 | h6 | h6 | h6
      · exact h7 h6
      · exact hlast h6
      · exact absurd htier (Nat.not_le_of_lt h6)
      · exact h6 hfit
  · intro h i hi
    have hpair := pairAt_of_injectedAt rest hi
    have hflags : (applyContextBudget messages contextWindow maxOutputTokens saliences).keep i
        = (applyContextBudget messages contextWindow maxOutputTokens saliences).keep (i + 1) := by
      refine hpair.keep_eq_iff.mpr ?_
      rcases h with h7 | hgone
      · exact Or.inl h7
      · by_cases hend : i + 2 = messages.length
        · exact Or.inr (Or.inl hend)
        · by_cases htier : 5 < tierAt messages i
          · exact Or.inr (Or.inr (Or.inl htier))
          · exact Or.inr (Or.inr (Or.inr (hgone i hi hend (Nat.le_of_not_lt htier))))
    exact ⟨hflags, fun hkeep => hpair.adjacent rfl hkeep (hflags ▸ hkeep)⟩

/-- A project state, and a history that fills the window. -/
def longHistory : ContextInput where
  memorySheet := []
  projectSummary := "Moving to Rust.".toList
  retrievedChunks := []
  historySummary := []
  history := [.ofText .user (List.replicate 100 'x')]
  intent := .other

/-- The project state stays and its acknowledgement goes. -/
theorem longHistory_pair_split :
    ¬ PairsKeptTogether longHistory [] [.ofText .user "And now?".toList] 560 54 [] := by
  intro h
  have hinjected : InjectedAt longHistory [] 1 := Or.inl ⟨0, _, rfl, rfl, rfl⟩
  have hcost : ∀ t, 1 ≤ t → costAt (baseMessages longHistory [] [.ofText .user "And now?".toList]) t
      = 428 + costAt ((baseMessages longHistory [] [.ofText .user "And now?".toList]).drop 1) t := by
    intro t ht
    rw [← preamble_tokens (a := longHistory) rfl rfl, ← costAt_cons_system rfl _ ht]
    rfl
  have hcond := (pairAt_of_injectedAt _ hinjected).keep_eq_iff.mp (h 1 hinjected).1
  rw [show tierAt _ 1 = 2 from rfl, hcost 7 (by decide), hcost (2 + 1) (by decide)] at hcond
  revert hcond
  decide

end Eidetic.Context
