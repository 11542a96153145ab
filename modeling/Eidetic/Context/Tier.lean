import Eidetic.Context.Message

/-!
# Tiers: what the context budget drops first

`_message_tier` classifies a message by its content and position, `_ack_idx`
looks for the acknowledgement that follows it. `survives t` is the flag of a
message after every message of tier `≥ t` and the acks found for those are
gone; `costAt t` is what the survivors cost. Both are monotone in `t`, and
stage 9 keeps everything.

The classifier is a table of prefixes on the text of a message that is not the
last one and not a system message, for whom the tier is 0. The scan for an ack
goes over assistant messages only and ends at the first ack (`ackScan_spec`),
and an ack is always dropped with the block before it or with tier 6, whichever
comes first. What other modules use of the two are the flags: a message that is
no ack survives exactly the stages above its tier (`survives_of_not_isAck`), and
stages between which no tier is present keep the same (`survives_eq_of_absent`).

`tierAt_cons_system` and its companions move everything by one position, for the
rules that `generate_stream` puts in front.
-/

namespace Eidetic.Context

open Eidetic.Lib Eidetic.Py

/-- `_TIER_PREFIXES`; the pattern `\[GRAPH (?:CONTEXT|FACTS)\]` is its two words. -/
def tierPrefixes : List (Nat × Text) :=
  [(8, "[LAST SESSION]".toList),
    (7, "[FILE CONTEXT]".toList),
    (6, "[RELEVANT CONTEXT".toList),
    (5, "[EARLIER IN THIS CONVERSATION]".toList),
    (4, "[GRAPH CONTEXT]".toList),
    (4, "[GRAPH FACTS]".toList),
    (3, "[ACTIVE GOALS]".toList),
    (2, "[RECENT INSIGHTS]".toList),
    (2, "[PROJECT STATE]".toList),
    (1, "[USER STATE]".toList)]

/-- The tier the prefix of a text gives it, `6` without one. -/
def textTier (s : Text) : Nat :=
  match tierPrefixes.find? fun p => startsWith s p.2 with
  | some p => p.1
  | none => 6

/-- `_message_tier`: tier 0 is never dropped. -/
def messageTier (m : Message) (isLast : Bool) : Nat :=
  if isLast then 0
  else match m.getContent with
    | .parts _ => 0
    | .text s => if m.role = .system then 0 else textTier s

/-- `m["role"] == "assistant"` with a text content that starts with `Understood`. -/
def isAck (m : Message) : Bool :=
  m.role == .assistant && match m.content with
    | some (.text s) => startsWith s "Understood".toList
    | _ => false

/-- The scan of `_ack_idx` over the messages from index `i` on: other
assistant messages are passed over, any other role ends it. -/
def ackScan : List Message → Nat → Option Nat
  | [], _ => none
  | m :: rest, i =>
    if isAck m then some i
    else if m.role ≠ .assistant then none
    else ackScan rest (i + 1)

/-- `_ack_idx(messages, start)`. -/
def ackIdx (messages : List Message) (start : Nat) : Option Nat :=
  ackScan (messages.drop (start + 1)) (start + 1)

/-- The tier of the message at an index. -/
def tierAt (messages : List Message) (i : Nat) : Nat :=
  match messages[i]? with
  | some m => messageTier m (i + 1 == messages.length)
  | none => 0

/-- Some message of a tier satisfying `p` has its ack at `i`. -/
def ackedFrom (messages : List Message) (p : Nat → Bool) (i : Nat) : Bool :=
  (List.range messages.length).any fun j =>
    p (tierAt messages j) && ackIdx messages j == some i

/-- The `drop` set of a tier: its messages and the acks found for them. -/
def dropSet (messages : List Message) (tier i : Nat) : Bool :=
  tierAt messages i == tier || ackedFrom messages (· == tier) i

/-- What is left after dropping every message of tier `≥ t` and their acks. -/
def survives (messages : List Message) (t i : Nat) : Bool :=
  decide (tierAt messages i < t) && !ackedFrom messages (fun τ => decide (t ≤ τ)) i

/-- `keep_t`. -/
def keepAt (messages : List Message) (t : Nat) : List Message :=
  keepBy (survives messages t) messages

/-- What `keep_t` costs. -/
def costAt (messages : List Message) (t : Nat) : Nat := tokensOf (keepAt messages t)

/-! ## The classifier -/

theorem textTier_le (s : Text) : textTier s ≤ 8 := by
  unfold textTier
  split
  next p hp =>
    have hmem := List.mem_of_find?_eq_some hp
    have hall : ∀ q ∈ tierPrefixes, q.1 ≤ 8 := by decide
    exact hall p hmem
  next => omega

theorem textTier_pos (s : Text) : 1 ≤ textTier s := by
  unfold textTier
  split
  next p hp =>
    have hmem := List.mem_of_find?_eq_some hp
    have hall : ∀ q ∈ tierPrefixes, 1 ≤ q.1 := by decide
    exact hall p hmem
  next => omega

/-- Only the user-state tag gives tier 1. -/
theorem startsWith_of_textTier_one {s : Text} (h : textTier s = 1) :
    startsWith s "[USER STATE]".toList = true := by
  unfold textTier at h
  split at h
  next p hp =>
    have hmem := List.mem_of_find?_eq_some hp
    have hstart := List.find?_some hp
    have hall : ∀ q ∈ tierPrefixes, q.1 = 1 → q.2 = "[USER STATE]".toList := by decide
    rw [← hall p hmem h]
    exact hstart
  next => exact absurd h (by omega)

theorem messageTier_le (m : Message) (isLast : Bool) : messageTier m isLast ≤ 8 := by
  unfold messageTier
  split
  next => omega
  next =>
    split
    next => omega
    next s _ =>
      split
      next => omega
      next => exact textTier_le s

@[simp] theorem messageTier_last (m : Message) : messageTier m true = 0 := rfl

/-- A system message is of tier 0, whatever tag it starts with. -/
theorem messageTier_system {m : Message} (h : m.role = .system) (isLast : Bool) :
    messageTier m isLast = 0 := by
  unfold messageTier
  split
  next => rfl
  next =>
    split
    next => rfl
    next => rfl

/-- A message above tier 0 is a text that carries the tier in its prefix. -/
theorem messageTier_text {m : Message} {isLast : Bool} (h : 1 ≤ messageTier m isLast) :
    isLast = false ∧ m.role ≠ .system ∧
      ∃ s, m.getContent = .text s ∧ messageTier m isLast = textTier s := by
  unfold messageTier at h ⊢
  split at h
  next => omega
  next hlast =>
    refine ⟨by simpa using hlast, ?_⟩
    split at h
    next => omega
    next s hs =>
      split at h
      next => omega
      next hrole => exact ⟨hrole, s, hs, by simp [hlast, hrole]⟩

theorem tierAt_le (messages : List Message) (i : Nat) : tierAt messages i ≤ 8 := by
  unfold tierAt
  split
  next => exact messageTier_le _ _
  next => omega

theorem lt_length_of_tierAt {messages : List Message} {i : Nat}
    (h : 1 ≤ tierAt messages i) : i < messages.length := by
  unfold tierAt at h
  split at h
  next hm => exact (List.getElem?_eq_some_iff.mp hm).1
  next => omega

theorem tierAt_of_getElem? {messages : List Message} {i : Nat} {m : Message}
    (h : messages[i]? = some m) :
    tierAt messages i = messageTier m (i + 1 == messages.length) := by
  unfold tierAt
  rw [h]

/-- The last message is of tier 0. -/
theorem tierAt_last {messages : List Message} {i : Nat} (h : i + 1 = messages.length) :
    tierAt messages i = 0 := by
  unfold tierAt
  split
  next => rw [show (i + 1 == messages.length) = true by simpa using h, messageTier_last]
  next => rfl

/-! ## The ack scan -/

theorem isAck_role {m : Message} (h : isAck m = true) : m.role = .assistant := by
  unfold isAck at h
  simp only [Bool.and_eq_true, beq_iff_eq] at h
  exact h.1

theorem isAck_of_role_ne {m : Message} (h : m.role ≠ .assistant) : isAck m = false := by
  cases hack : isAck m with
  | false => rfl
  | true => exact absurd (isAck_role hack) h

/-- An ack has a text content. -/
theorem isAck_text {m : Message} (h : isAck m = true) :
    ∃ s, m.content = some (.text s) ∧ startsWith s "Understood".toList = true := by
  unfold isAck at h
  simp only [Bool.and_eq_true] at h
  obtain ⟨_, hc⟩ := h
  split at hc
  next s hs => exact ⟨s, hs, hc⟩
  next => exact absurd hc (by simp)

/-- What the scan finds is an ack, and everything it passed is an assistant message. -/
theorem ackScan_spec {ms : List Message} {i k : Nat} (h : ackScan ms i = some k) :
    ∃ j m, k = i + j ∧ ms[j]? = some m ∧ isAck m = true ∧
      ∀ j' m', j' < j → ms[j']? = some m' → m'.role = .assistant := by
  induction ms generalizing i with
  | nil => exact absurd h (by simp [ackScan])
  | cons m rest ih =>
    unfold ackScan at h
    split at h
    next hack =>
      refine ⟨0, m, (Option.some.inj h).symm, rfl, hack, ?_⟩
      intro j' m' hj'
      omega
    next =>
      split at h
      next => exact absurd h (by simp)
      next hrole =>
        obtain ⟨j, m₁, hk, hm₁, hack, hpass⟩ := ih h
        refine ⟨j + 1, m₁, by omega, by simpa using hm₁, hack, ?_⟩
        intro j' m' hj' hm'
        cases j' with
        | zero =>
          have : m = m' := by simpa using hm'
          rw [← this]
          simpa using hrole
        | succ j' => exact hpass j' m' (by omega) (by simpa using hm')

/-- The ack found for `start` lies after it, with assistant messages only between. -/
theorem ackIdx_spec {messages : List Message} {start k : Nat}
    (h : ackIdx messages start = some k) :
    start < k ∧ (∃ m, messages[k]? = some m ∧ isAck m = true) ∧
      ∀ j m', start < j → j < k → messages[j]? = some m' → m'.role = .assistant := by
  obtain ⟨j, m, hk, hm, hack, hpass⟩ := ackScan_spec h
  rw [List.getElem?_drop] at hm
  refine ⟨by omega, ⟨m, by rw [hk]; exact hm, hack⟩, ?_⟩
  intro j' m' hlt hltk hm'
  refine hpass (j' - (start + 1)) m' (by omega) ?_
  rw [List.getElem?_drop, show start + 1 + (j' - (start + 1)) = j' by omega]
  exact hm'

/-- An ack directly after a message is the one found for it. -/
theorem ackIdx_of_next {messages : List Message} {i : Nat} {m : Message}
    (hm : messages[i + 1]? = some m) (hack : isAck m = true) :
    ackIdx messages i = some (i + 1) := by
  obtain ⟨hlt, hget⟩ := List.getElem?_eq_some_iff.mp hm
  unfold ackIdx
  rw [List.drop_eq_getElem_cons hlt, hget, ackScan, if_pos hack]

theorem ackedFrom_iff {messages : List Message} {p : Nat → Bool} {i : Nat} :
    ackedFrom messages p i = true ↔
      ∃ j, j < messages.length ∧ p (tierAt messages j) = true ∧
        ackIdx messages j = some i := by
  simp [ackedFrom, List.any_eq_true]

/-- Only an ack is ever dropped on behalf of another message. -/
theorem isAck_of_ackedFrom {messages : List Message} {p : Nat → Bool} {i : Nat}
    (h : ackedFrom messages p i = true) : ∃ m, messages[i]? = some m ∧ isAck m = true := by
  obtain ⟨_, _, _, hack⟩ := ackedFrom_iff.mp h
  exact (ackIdx_spec hack).2.1

/-- A message that is no ack is dropped with its own tier only. -/
theorem ackedFrom_eq_false {messages : List Message} {p : Nat → Bool} {i : Nat} {m : Message}
    (hm : messages[i]? = some m) (hack : isAck m = false) : ackedFrom messages p i = false := by
  cases h : ackedFrom messages p i with
  | false => rfl
  | true =>
    obtain ⟨m', hm', hack'⟩ := isAck_of_ackedFrom h
    have : m = m' := by simpa [hm] using hm'
    rw [← this, hack] at hack'
    exact absurd hack' (by simp)

/-! ## The stages -/

theorem survives_iff {messages : List Message} {t i : Nat} :
    survives messages t i = true ↔
      tierAt messages i < t ∧
        ∀ j, t ≤ tierAt messages j → j < messages.length → ackIdx messages j ≠ some i := by
  simp [survives, ackedFrom]
  grind

/-- A message that is no ack survives exactly the stages above its tier. -/
theorem survives_of_not_isAck {messages : List Message} {t i : Nat} {m : Message}
    (hm : messages[i]? = some m) (hack : isAck m = false) :
    survives messages t i = decide (tierAt messages i < t) := by
  unfold survives
  rw [ackedFrom_eq_false hm hack]
  simp

theorem survives_mono {messages : List Message} {t t' i : Nat} (h : t ≤ t')
    (hs : survives messages t i = true) : survives messages t' i = true := by
  rw [survives_iff] at hs ⊢
  refine ⟨by omega, fun j hj hlt => hs.2 j (by omega) hlt⟩

/-- Dropping tier `t` leads from stage `t + 1` to stage `t`. -/
theorem survives_succ (messages : List Message) (t i : Nat) :
    survives messages t i = (survives messages (t + 1) i && !dropSet messages t i) := by
  rw [Bool.eq_iff_iff]
  simp only [Bool.and_eq_true, Bool.not_eq_true', survives_iff, dropSet, Bool.or_eq_false_iff,
    beq_eq_false_iff_ne]
  -- it survives the lower stage unless it is of tier `t`, or the ack of such a message
  refine ⟨fun ⟨hlt, hno⟩ => ⟨⟨by omega, fun j hj => hno j (by omega)⟩, by omega, ?_⟩,
    fun ⟨⟨hlt, hno⟩, hne, hack⟩ => ⟨by omega, fun j hj hlen => ?_⟩⟩
  · cases h : ackedFrom messages (· == t) i with
    | false => rfl
    | true =>
      obtain ⟨j, hlen, hj, hk⟩ := ackedFrom_iff.mp h
      exact absurd hk (hno j (by simp at hj; omega) hlen)
  · intro hk
    rcases Nat.lt_or_ge t (tierAt messages j) with hgt | hle
    · exact hno j hgt hlen hk
    · have : ackedFrom messages (· == t) i = true :=
        ackedFrom_iff.mpr ⟨j, hlen, by simp; omega, hk⟩
      rw [this] at hack
      exact absurd hack (by simp)

/-- Stages between which no tier is present keep the same messages. -/
theorem survives_eq_of_absent {messages : List Message} {t u : Nat} (htu : t ≤ u)
    (habs : ∀ i, i < messages.length → tierAt messages i < u → tierAt messages i < t)
    (h1 : 1 ≤ t) (i : Nat) : survives messages t i = survives messages u i := by
  rw [Bool.eq_iff_iff]
  refine ⟨survives_mono htu, fun hs => ?_⟩
  rw [survives_iff] at hs ⊢
  -- also past the end, where the tier is 0
  have hbelow : ∀ j, tierAt messages j < u → tierAt messages j < t := by
    intro j hj
    rcases Nat.lt_or_ge j messages.length with hlt | hge
    · exact habs j hlt hj
    · have : tierAt messages j = 0 := by
        by_contra hne
        have : j < messages.length := lt_length_of_tierAt (by omega)
        omega
      omega
  refine ⟨hbelow i hs.1, fun j hj hlen => hs.2 j ?_ hlen⟩
  by_contra hlt
  have := hbelow j (by omega)
  omega

/-! ## A system message in front -/

theorem ackScan_succ (ms : List Message) (i : Nat) :
    ackScan ms (i + 1) = (ackScan ms i).map (· + 1) := by
  induction ms generalizing i with
  | nil => rfl
  | cons m rest ih =>
    unfold ackScan
    split
    next => rfl
    next =>
      split
      next => rfl
      next => exact ih (i + 1)

theorem tierAt_cons_succ (m : Message) (ms : List Message) (i : Nat) :
    tierAt (m :: ms) (i + 1) = tierAt ms i := by
  unfold tierAt
  rw [List.getElem?_cons_succ, List.length_cons]
  simp

theorem ackIdx_cons_succ (m : Message) (ms : List Message) (i : Nat) :
    ackIdx (m :: ms) (i + 1) = (ackIdx ms i).map (· + 1) := by
  unfold ackIdx
  rw [List.drop_succ_cons, ackScan_succ]

theorem tierAt_cons_system {m : Message} (h : m.role = .system) (ms : List Message) :
    tierAt (m :: ms) 0 = 0 := by
  rw [tierAt_of_getElem? rfl, messageTier_system h]

/-- A system message in front is kept and changes nothing for the rest. -/
theorem keepAt_cons_system {m : Message} (h : m.role = .system) (ms : List Message) {t : Nat}
    (h1 : 1 ≤ t) : keepAt (m :: ms) t = m :: keepAt ms t := by
  -- a system message is of tier 0 and nobody's ack, so it only shifts the indices
  have hack : isAck m = false := isAck_of_role_ne (by rw [h]; decide)
  have hzero : survives (m :: ms) t 0 = true := by
    rw [survives_of_not_isAck rfl hack, tierAt_cons_system h]
    simp
    omega
  unfold keepAt
  rw [keepBy_cons_pos hzero]
  congr 1
  apply keepBy_congr ms
  intro i _
  rw [Bool.eq_iff_iff, survives_iff, survives_iff, tierAt_cons_succ]
  refine and_congr_right fun _ => ⟨fun hno j hj hlen hidx => ?_, fun hno j hj hlen => ?_⟩
  · refine hno (j + 1) (by rw [tierAt_cons_succ]; exact hj) (by simpa using hlen) ?_
    rw [ackIdx_cons_succ, hidx]
    rfl
  · cases j with
    | zero =>
      rw [tierAt_cons_system h] at hj
      omega
    | succ j =>
      rw [tierAt_cons_succ] at hj
      rw [ackIdx_cons_succ]
      have := hno j hj (by simpa using hlen)
      intro hidx
      obtain ⟨k, hk, hki⟩ := Option.map_eq_some_iff.mp hidx
      rw [show k = i by omega] at hk
      exact this hk

theorem costAt_cons_system {m : Message} (h : m.role = .system) (ms : List Message) {t : Nat}
    (h1 : 1 ≤ t) : costAt (m :: ms) t = messageTokens m + costAt ms t := by
  unfold costAt tokensOf totalWeight
  rw [keepAt_cons_system h ms h1, List.map_cons, List.sum_cons]

/-! ## The ends of the scale -/

/-- Stage 9 keeps every message. -/
theorem survives_nine (messages : List Message) {t : Nat} (ht : 9 ≤ t) (i : Nat) :
    survives messages t i = true := by
  rw [survives_iff]
  refine ⟨by have := tierAt_le messages i; omega, fun j hj => ?_⟩
  have := tierAt_le messages j
  omega

theorem keepAt_nine (messages : List Message) {t : Nat} (ht : 9 ≤ t) :
    keepAt messages t = messages :=
  keepBy_all messages fun i _ => survives_nine messages ht i

theorem keepAt_mono (messages : List Message) {t t' : Nat} (h : t ≤ t') :
    (keepAt messages t).Sublist (keepAt messages t') :=
  keepBy_mono messages fun _ _ => survives_mono h

theorem costAt_mono (messages : List Message) : Monotone (costAt messages) :=
  fun _ _ h => totalWeight_le_of_sublist messageTokens (keepAt_mono messages h)

theorem costAt_nine (messages : List Message) {t : Nat} (ht : 9 ≤ t) :
    costAt messages t = tokensOf messages := by
  unfold costAt
  rw [keepAt_nine messages ht]

end Eidetic.Context
