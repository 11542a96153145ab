import Eidetic.Lib.Lease
import Eidetic.Lib.Run
import Eidetic.Stream.Turn
import Mathlib.Tactic.NormNum

/-!
# The latches of a conversation

A key for each connector that has been latched in a conversation. A turn reads
the keys of the active connectors, renews those it finds, and sets at most one
more: that of the connector with the highest score among the active ones without
a key, if the score clears its threshold and the floor. Where several have that
score the first one is taken, and its threshold is the lowest of theirs
(`latching`).

The turns are those that compute scores for a message. A turn that is answered
from the cache and one that compares models compute none: they read no key, set
none, and are no turns here.

What a turn should do is the `LatchLaw`, in terms of the candidates, which are
the active connectors without a key. The code takes the maximum over a
dictionary, in its order, so the winner is the first one with the highest score
(`topScorer_some`), and as the thresholds rise in that order, a score that
clears the threshold of any of those with it clears the winner's
(`winner_threshold`). A turn renews what it reads, and keys last an hour from
then on (`next_expires`), so between turns that are close enough nothing that
was latched is lost.
-/

namespace Eidetic.Stream

open Eidetic.Lib

/-- `{connector}_latched:{conv_id}` for each connector. -/
abbrev LatchKeys := Connector → Option (Lease Unit)

/-- What a turn of the conversation brings: its time, in milliseconds, the active
connectors and the scores of the message. -/
structure LatchTurn where
  now : Nat
  active : Connector → Bool
  score : Connector → Rat

/-- `ex=3600`, in milliseconds. -/
def latchTtl : Nat := 3600000

/-- The latches that the turn reads: only those of active connectors. -/
def LatchKeys.read (s : LatchKeys) (t : LatchTurn) (c : Connector) : Bool :=
  t.active c && (live t.now (s c)).isSome

/-- The latches by which the turn is served. -/
def LatchKeys.served (s : LatchKeys) (t : LatchTurn) : Connector → Bool :=
  resolveConnectorLatches t.active (s.read t) t.score

/-- The keys after the turn. -/
def LatchKeys.next (s : LatchKeys) (t : LatchTurn) : LatchKeys := fun c =>
  -- a latch that was read is renewed, and the new one is set
  if s.read t c then some ⟨(), t.now + latchTtl⟩
  else if s.served t c then some ⟨(), t.now + latchTtl⟩
  else s c

/-- No key has expired when the turn comes. -/
def NoneExpired (s : LatchKeys) (t : LatchTurn) : Prop := ∀ c l, s c = some l → t.now < l.expires

/-! ## What a turn is to do -/

def LatchKeys.IsLatched (s : LatchKeys) (c : Connector) : Prop := (s c).isSome

/-- The turn can latch the connector. -/
structure Candidate (s : LatchKeys) (t : LatchTurn) (c : Connector) : Prop where
  active : t.active c
  unlatched : ¬ s.IsLatched c

/-- No other candidate has a higher score. -/
structure TopCandidate (s : LatchKeys) (t : LatchTurn) (c : Connector) : Prop
    extends Candidate s t c where
  top : ∀ d, Candidate s t d → t.score d ≤ t.score c

/-- The score clears both thresholds. -/
structure Clears (t : LatchTurn) (c : Connector) : Prop where
  own : intentThreshold c ≤ t.score c
  floor : floorThreshold ≤ t.score c

def NewlyLatched (s : LatchKeys) (t : LatchTurn) (c : Connector) : Prop :=
  ¬ s.IsLatched c ∧ (s.next t).IsLatched c

/-- The latches only grow, by at most one, which is the top candidate and clears
both thresholds; where a top candidate does, one with its score is latched, and
the turn is served by the latches it leaves. -/
structure LatchLaw (s : LatchKeys) (t : LatchTurn) : Prop where
  grows : ∀ c, s.IsLatched c → (s.next t).IsLatched c
  single : ∀ c d, NewlyLatched s t c → NewlyLatched s t d → c = d
  top : ∀ c, NewlyLatched s t c → TopCandidate s t c ∧ Clears t c
  latches : ∀ c, TopCandidate s t c → Clears t c →
    ∃ d, NewlyLatched s t d ∧ t.score d = t.score c ∧
      ((∀ e, Candidate s t e → e ≠ c → t.score e < t.score c) → d = c)
  serves : ∀ c, s.served t c ↔ t.active c ∧ (s.next t).IsLatched c

/-- All turns keep the law, and what was latched at some time stays so. -/
structure Latching (turns : List LatchTurn) : Prop where
  law : Throughout LatchKeys.next LatchLaw (fun _ => none) turns
  grows : ∀ before after, turns = before ++ after → ∀ c,
    (run LatchKeys.next (fun _ => none) before).IsLatched c →
      (run LatchKeys.next (fun _ => none) turns).IsLatched c

/-! ## The winner -/

/-- The top scorer is the first with the highest score. -/
theorem topScorer_some {score : Connector → Rat} {connectors : List Connector} {w : Connector}
    (h : topScorer score connectors = some w) :
    ∃ before after, connectors = before ++ w :: after ∧ (∀ c ∈ before, score c < score w) ∧
      ∀ c ∈ after, score c ≤ score w := by
  induction connectors generalizing w with
  | nil => exact absurd h (by simp [topScorer])
  | cons c rest ih =>
    unfold topScorer at h
    cases hrest : topScorer score rest with
    | none =>
      rw [hrest] at h
      obtain rfl := Option.some.inj h
      have hnil : rest = [] := by
        cases rest with
        | nil => rfl
        | cons d rest =>
          unfold topScorer at hrest
          split at hrest
          next => exact absurd hrest (by simp)
          next => split at hrest <;> exact absurd hrest (by simp)
      exact ⟨[], [], by rw [hnil]; rfl, by simp, by simp⟩
    | some d =>
      rw [hrest] at h
      dsimp only at h
      obtain ⟨before, after, hsplit, hbefore, hafter⟩ := ih hrest
      split at h
      next hlt =>
        obtain rfl := Option.some.inj h
        refine ⟨c :: before, after, by rw [hsplit]; rfl, ?_, hafter⟩
        intro e he
        rcases List.mem_cons.mp he with rfl | he
        · exact hlt
        · exact hbefore e he
      next hle =>
        obtain rfl := Option.some.inj h
        refine ⟨[], rest, rfl, by simp, ?_⟩
        intro e he
        have hd : score e ≤ score d := by
          rw [hsplit] at he
          rcases List.mem_append.mp he with he | he
          · exact le_of_lt (hbefore e he)
          · rcases List.mem_cons.mp he with rfl | he
            · exact le_refl _
            · exact hafter e he
        exact le_trans hd (not_lt.mp hle)

theorem topScorer_none {score : Connector → Rat} {connectors : List Connector}
    (h : topScorer score connectors = none) : connectors = [] := by
  cases connectors with
  | nil => rfl
  | cons c rest =>
    unfold topScorer at h
    split at h
    next => exact absurd h (by simp)
    next => split at h <;> exact absurd h (by simp)

variable {s : LatchKeys} {t : LatchTurn}

/-- The candidates of a turn, in the order of the source. -/
def candidates (s : LatchKeys) (t : LatchTurn) : List Connector :=
  [Connector.drive, .calendar, .gmail].filter fun c => t.active c && !s.read t c

/-- The thresholds of the candidates rise in their order. -/
theorem candidates_thresholds (s : LatchKeys) (t : LatchTurn) :
    (candidates s t).Pairwise fun c d => intentThreshold c ≤ intentThreshold d := by
  refine List.Pairwise.filter _ ?_
  simp only [List.pairwise_cons, List.mem_cons, List.not_mem_nil, or_false, forall_eq_or_imp,
    forall_eq, intentThreshold, List.Pairwise.nil, and_true, false_implies, implies_true]
  norm_num

theorem live_of_noneExpired (h : NoneExpired s t) (c : Connector) : live t.now (s c) = s c := by
  cases hs : s c with
  | none => rfl
  | some l => exact live_eq_some.mpr ⟨rfl, h c l hs⟩

theorem read_iff (h : NoneExpired s t) (c : Connector) :
    s.read t c ↔ t.active c ∧ s.IsLatched c := by
  unfold LatchKeys.read LatchKeys.IsLatched
  rw [live_of_noneExpired h, Bool.and_eq_true]

theorem mem_candidates (h : NoneExpired s t) (c : Connector) : c ∈ candidates s t ↔ Candidate s t c := by
  have hc : c ∈ [Connector.drive, .calendar, .gmail] := by cases c <;> decide
  unfold candidates
  rw [List.mem_filter, Bool.and_eq_true, Bool.not_eq_true', and_iff_right hc]
  constructor
  · rintro ⟨hactive, hread⟩
    refine ⟨hactive, fun hlatched => ?_⟩
    rw [(read_iff h c).mpr ⟨hactive, hlatched⟩] at hread
    exact absurd hread (by simp)
  · rintro ⟨hactive, hunlatched⟩
    refine ⟨hactive, ?_⟩
    by_contra hread
    exact hunlatched ((read_iff h c).mp (by simpa using hread)).2

theorem next_latched (c : Connector) :
    (s.next t).IsLatched c ↔ s.IsLatched c ∨ s.read t c ∨ s.served t c := by
  unfold LatchKeys.IsLatched LatchKeys.next
  split
  next hread => simp [hread]
  next hread =>
    split
    next hserved => simp [hserved]
    next hserved => simp [hread, hserved]

/-- A key that a turn leaves lasts an hour from then on, or was there before. -/
theorem next_expires {c : Connector} {l : Lease Unit} (h : s.next t c = some l) :
    l.expires = t.now + latchTtl ∨ s c = some l := by
  unfold LatchKeys.next at h
  split at h
  next => exact Or.inl (by rw [← Option.some.inj h])
  next =>
    split at h
    next => exact Or.inl (by rw [← Option.some.inj h])
    next => exact Or.inr h

/-- What a turn is served by: what it reads, and the winner if that clears both. -/
theorem served_iff (s : LatchKeys) (t : LatchTurn) (c : Connector) :
    s.served t c ↔ s.read t c ∨ topScorer t.score (candidates s t) = some c ∧ Clears t c := by
  have hcandidates : ([Connector.drive, .calendar, .gmail].filter fun c => t.active c && !s.read t c)
      = candidates s t := rfl
  unfold LatchKeys.served resolveConnectorLatches
  rw [hcandidates]
  cases topScorer t.score (candidates s t) with
  | none => simp
  | some winner =>
    simp only [Bool.or_eq_true, Bool.and_eq_true, beq_iff_eq, decide_eq_true_eq, Option.some.injEq]
    refine or_congr_right ?_
    constructor
    · rintro ⟨⟨rfl, hown⟩, hfloor⟩
      exact ⟨rfl, hown, hfloor⟩
    · rintro ⟨rfl, hown, hfloor⟩
      exact ⟨⟨rfl, hown⟩, hfloor⟩

/-- A connector is newly latched when it is the winner and clears both thresholds. -/
theorem newlyLatched_iff (h : NoneExpired s t) (c : Connector) :
    NewlyLatched s t c ↔ topScorer t.score (candidates s t) = some c ∧ Clears t c := by
  unfold NewlyLatched
  rw [next_latched, served_iff]
  constructor
  · rintro ⟨hnot, hlatched | hread | hread | hwins⟩
    · exact absurd hlatched hnot
    · exact absurd ((read_iff h c).mp hread).2 hnot
    · exact absurd ((read_iff h c).mp hread).2 hnot
    · exact hwins
  · rintro ⟨hwins, hclears⟩
    obtain ⟨before, after, hsplit, _, _⟩ := topScorer_some hwins
    have hmem : c ∈ candidates s t := by simp [hsplit]
    exact ⟨((mem_candidates h c).mp hmem).unlatched, Or.inr (Or.inr (Or.inr ⟨hwins, hclears⟩))⟩

theorem winner_top (h : NoneExpired s t) {w : Connector}
    (hwins : topScorer t.score (candidates s t) = some w) : TopCandidate s t w := by
  obtain ⟨before, after, hsplit, hbefore, hafter⟩ := topScorer_some hwins
  have hmem : w ∈ candidates s t := by simp [hsplit]
  refine ⟨(mem_candidates h w).mp hmem, fun d hd => ?_⟩
  have hd := (mem_candidates h d).mpr hd
  rw [hsplit] at hd
  rcases List.mem_append.mp hd with hd | hd
  · exact le_of_lt (hbefore d hd)
  · rcases List.mem_cons.mp hd with rfl | hd
    · exact le_refl _
    · exact hafter d hd

/-- The winner clears its threshold when any of its score does: theirs are higher. -/
theorem winner_threshold (h : NoneExpired s t) {w c : Connector}
    (hwins : topScorer t.score (candidates s t) = some w) (hc : Candidate s t c)
    (hscore : t.score w ≤ t.score c) : intentThreshold w ≤ intentThreshold c := by
  obtain ⟨before, after, hsplit, hbefore, _⟩ := topScorer_some hwins
  have hthresholds := candidates_thresholds s t
  have hmem := (mem_candidates h c).mpr hc
  rw [hsplit] at hmem hthresholds
  rcases List.mem_append.mp hmem with hmem | hmem
  · exact absurd (hbefore c hmem) (not_lt.mpr hscore)
  · rcases List.mem_cons.mp hmem with rfl | hmem
    · exact le_refl _
    · exact (List.pairwise_cons.mp (List.pairwise_append.mp hthresholds).2.1).1 c hmem

/-! ## A turn and a conversation -/

theorem latchLaw_step (h : NoneExpired s t) : LatchLaw s t where
  grows c hc := (next_latched c).mpr (Or.inl hc)
  single c d hc hd := by
    have hwins := ((newlyLatched_iff h c).mp hc).1
    rw [((newlyLatched_iff h d).mp hd).1] at hwins
    exact (Option.some.inj hwins).symm
  top c hc := by
    obtain ⟨hwins, hclears⟩ := (newlyLatched_iff h c).mp hc
    exact ⟨winner_top h hwins, hclears⟩
  latches c hc hclears := by
    cases hwins : topScorer t.score (candidates s t) with
    | none =>
      have hmem := (mem_candidates h c).mpr hc.toCandidate
      rw [topScorer_none hwins] at hmem
      exact absurd hmem List.not_mem_nil
    | some w =>
      have hw := winner_top h hwins
      have hscore : t.score w = t.score c :=
        le_antisymm (hc.top w hw.toCandidate) (hw.top c hc.toCandidate)
      have hown := winner_threshold h hwins hc.toCandidate (le_of_eq hscore)
      refine ⟨w, (newlyLatched_iff h w).mpr ⟨hwins, ?_, ?_⟩, hscore, fun hunique => ?_⟩
      · rw [hscore]
        exact le_trans hown hclears.own
      · rw [hscore]
        exact hclears.floor
      · by_contra hne
        exact absurd (hunique w hw.toCandidate hne) (not_lt.mpr (le_of_eq hscore.symm))
  serves c := by
    rw [next_latched, served_iff]
    constructor
    · rintro (hread | ⟨hwins, hclears⟩)
      · exact ⟨((read_iff h c).mp hread).1, Or.inr (Or.inl hread)⟩
      · exact ⟨(winner_top h hwins).active, Or.inr (Or.inr (Or.inr ⟨hwins, hclears⟩))⟩
    · rintro ⟨hactive, hlatched | hread | hserved⟩
      · exact Or.inl ((read_iff h c).mpr ⟨hactive, hlatched⟩)
      · exact Or.inl hread
      · exact hserved

/-- Along a conversation in which no key expires every turn keeps the law. -/
theorem throughout_latchLaw {s : LatchKeys} {turns : List LatchTurn}
    (h : Throughout LatchKeys.next NoneExpired s turns) :
    Throughout LatchKeys.next LatchLaw s turns := by
  induction turns generalizing s with
  | nil => trivial
  | cons t turns ih => exact ⟨latchLaw_step h.1, ih h.2⟩

theorem run_latched {s : LatchKeys} {turns : List LatchTurn} {c : Connector} (hc : s.IsLatched c) :
    (run LatchKeys.next s turns).IsLatched c :=
  run_preserves (fun s : LatchKeys => s.IsLatched c) (fun _ _ h => (next_latched c).mpr (Or.inl h))
    hc turns

/-- In a conversation whose keys do not expire between its turns the latches only
grow, one at a time, by the top candidate. -/
theorem latching (turns : List LatchTurn)
    (h : Throughout LatchKeys.next NoneExpired (fun _ => none) turns) : Latching turns := by
  refine ⟨throughout_latchLaw h, ?_⟩
  rintro before after rfl c hc
  rw [run_append]
  exact run_latched hc

/-- A message for the drive, and one for the mail a minute later. -/
def twoRequests : List LatchTurn :=
  [{ now := 0, active := fun _ => true, score := fun c => if c = .drive then 1 / 2 else 0 },
    { now := 60000, active := fun _ => true, score := fun c => if c = .gmail then 1 / 2 else 1 / 4 }]

theorem latching_twoRequests :
    Throughout LatchKeys.next NoneExpired (fun _ => none) twoRequests ∧ Latching twoRequests := by
  have hlasting : Throughout LatchKeys.next NoneExpired (fun _ => none) twoRequests := by
    refine ⟨fun c l hl => absurd hl (by simp), fun c l hl => ?_, trivial⟩
    have hexpires := (next_expires hl).resolve_right (by simp)
    rw [hexpires]
    decide
  exact ⟨hlasting, latching _ hlasting⟩

end Eidetic.Stream
