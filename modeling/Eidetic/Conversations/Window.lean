import Eidetic.Conversations.Tables
import Eidetic.Lib.Best
import Mathlib.Algebra.Order.Field.Basic
import Mathlib.Tactic.Linarith

/-!
# The history window

`_build_stream_context` sends ten of the last thirty messages to the model, the
best ones by a mix of recency and relevance, in the order of their times. The
newest message has the highest recency but nothing more: it is left out when ten
others reach its score (`selectHistory_window`).

The score of a message adds six tenths of its place to four tenths of its
relevance, and the ten best are taken, the earlier ones among equals.
`newest_mem_iff` is the whole argument: the newest is chosen exactly when fewer
than ten of the others reach its score, by the lemma of the library on the best
of a list (`last_mem_best_iff`). What the result has otherwise, at most ten
messages, each once and in the order of their times, holds for any scores
(`selectHistory_isWindow`).

When ten others can reach the newest is a matter of their relevance: one that
does is not among the oldest third (`third_of_reaches`), so a relevance at every
second message is not enough (`reaching_alternating`). `created_at` orders the
candidates, and the hypothesis is that the newest is the last one in that order.
-/

namespace Eidetic.Conversations

open Eidetic.Lib

/-- The rows that `select(Message)...limit(30)` gives, turned round. -/
def candidatesOf (order : List Message) : List Message := latest 30 order

/-- `0.6 * recency + 0.4 * relevance` of the candidate at place `i` of `n`. -/
def scoreAt (relevance : Nat → Option Rat) (n i : Nat) (m : Message) : Rat :=
  let recency := (i : Rat) / (max (n - 1) 1 : Nat)
  6 / 10 * recency + 4 / 10 * (relevance m.id).getD 0

/-- `scored`. -/
def scored (relevance : Nat → Option Rat) (candidates : List Message) : List (Rat × Message) :=
  candidates.mapIdx fun i m => (scoreAt relevance candidates.length i m, m)

/-- `top_msgs`: the ten best, by their times. -/
def selectHistory (relevance : Nat → Option Rat) (candidates : List Message) : List Message :=
  ((best Prod.fst 10 (scored relevance candidates)).map Prod.snd).insertionSort fun a b =>
    a.createdAt ≤ b.createdAt

/-- At most ten of the candidates, each once, in the order of their times. -/
structure IsWindow (candidates chosen : List Message) : Prop where
  atMostTen : chosen.length ≤ 10
  ofCandidates : ∀ m ∈ chosen, m ∈ candidates
  distinct : chosen.Nodup
  chronological : chosen.Pairwise fun a b => a.createdAt ≤ b.createdAt

/-- How many of the other candidates reach the score of the newest. -/
def reaching (relevance : Nat → Option Rat) (candidates : List Message) : Nat :=
  match (scored relevance candidates).getLast? with
  | some newest => (scored relevance candidates).dropLast.countP fun other => newest.1 ≤ other.1
  | none => 0

variable {relevance : Nat → Option Rat} {candidates : List Message}

theorem scored_messages (relevance : Nat → Option Rat) (candidates : List Message) :
    (scored relevance candidates).map Prod.snd = candidates := by
  exact List.ext_getElem (by simp [scored]) fun i _ _ => by simp [scored]

theorem nodup_scored (h : candidates.Nodup) : (scored relevance candidates).Nodup := by
  rw [← scored_messages relevance candidates] at h
  exact h.of_map _

theorem selectHistory_perm (relevance : Nat → Option Rat) (candidates : List Message) :
    (selectHistory relevance candidates).Perm
      ((best Prod.fst 10 (scored relevance candidates)).map Prod.snd) :=
  List.perm_insertionSort _ _

theorem selectHistory_isWindow (relevance : Nat → Option Rat) (h : candidates.Nodup) :
    IsWindow candidates (selectHistory relevance candidates) := by
  have hperm := selectHistory_perm relevance candidates
  have hsub : List.Sublist ((byScore Prod.fst (scored relevance candidates)).take 10)
      (byScore Prod.fst (scored relevance candidates)) := List.take_sublist _ _
  have hall : ((byScore Prod.fst (scored relevance candidates)).map Prod.snd).Perm candidates := by
    have hsorted := (byScore_perm Prod.fst (scored relevance candidates)).map Prod.snd
    rwa [scored_messages] at hsorted
  refine ⟨?_, ?_, ?_, ?_⟩
  · rw [hperm.length_eq, List.length_map, length_best]
    exact Nat.min_le_left _ _
  · intro m hm
    exact hall.subset ((hsub.map Prod.snd).subset (hperm.subset hm))
  · exact hperm.nodup_iff.mpr ((hall.nodup_iff.mpr h).sublist (hsub.map Prod.snd))
  · have htotal : Std.Total fun a b : Message => a.createdAt ≤ b.createdAt :=
      ⟨fun a b => Int.le_total _ _⟩
    have htrans : IsTrans Message fun a b => a.createdAt ≤ b.createdAt :=
      ⟨fun a b c => Int.le_trans⟩
    exact List.pairwise_insertionSort _ _

/-- The newest candidate is chosen exactly when fewer than ten others reach it. -/
theorem newest_mem_iff (h : candidates.Nodup) {newest : Message}
    (hnewest : newest ∈ candidates.getLast?) :
    newest ∈ selectHistory relevance candidates ↔ reaching relevance candidates < 10 := by
  have hlast : (scored relevance candidates).getLast?.map Prod.snd = some newest := by
    rw [← List.getLast?_map, scored_messages]
    exact hnewest
  obtain ⟨⟨score, m⟩, hpair, rfl⟩ := Option.map_eq_some_iff.mp hlast
  have hsplit : scored relevance candidates
      = (scored relevance candidates).dropLast ++ [(score, m)] := by
    rw [List.dropLast_append_getLast? _ hpair]
  have hmem : m ∈ selectHistory relevance candidates ↔
      (score, m) ∈ best Prod.fst 10 (scored relevance candidates) := by
    rw [(selectHistory_perm relevance candidates).mem_iff, List.mem_map]
    constructor
    · rintro ⟨other, hother, rfl⟩
      -- a message is scored once
      have hsame : other = (score, other.2) := by
        refine List.inj_on_of_nodup_map (f := Prod.snd) ?_ (best_subset hother)
          (List.mem_of_getLast? hpair) rfl
        rw [scored_messages]
        exact h
      rwa [← hsame]
    · exact fun hbest => ⟨_, hbest, rfl⟩
  have hnodup : (scored relevance candidates).Nodup := nodup_scored h
  rw [hsplit] at hnodup
  rw [hmem, reaching, hpair, hsplit, last_mem_best_iff hnodup, List.dropLast_concat]

/-! ## The window of a conversation -/

theorem nodup_candidatesOf {messages order : List Message} {conversation : Nat}
    (hids : (messages.map Message.id).Nodup) (horder : Chronological messages conversation order) :
    (candidatesOf order).Nodup := by
  have hrows : (messagesOf messages conversation).Nodup := hids.of_map.filter _
  exact (horder.perm.nodup_iff.mpr hrows).sublist (List.drop_sublist _ _)

theorem getLast?_candidatesOf (order : List Message) :
    (candidatesOf order).getLast? = order.getLast? := by
  unfold candidatesOf latest
  cases order with
  | nil => rfl
  | cons m order =>
    rw [List.getLast?_drop, if_neg]
    simp only [List.length_cons]
    omega

/-- **The history is a window, with the newest message unless ten others reach
its score.** -/
theorem selectHistory_window {messages order : List Message} {conversation : Nat}
    (hids : (messages.map Message.id).Nodup) (horder : Chronological messages conversation order)
    (relevance : Nat → Option Rat) :
    IsWindow (candidatesOf order) (selectHistory relevance (candidatesOf order)) ∧
      ∀ newest ∈ order.getLast?, newest ∈ selectHistory relevance (candidatesOf order) ↔
        reaching relevance (candidatesOf order) < 10 := by
  have hnodup := nodup_candidatesOf hids horder
  refine ⟨selectHistory_isWindow relevance hnodup, fun newest hnewest => ?_⟩
  rw [← getLast?_candidatesOf] at hnewest
  exact newest_mem_iff hnodup hnewest

/-- Of two scores of a window, the older one reaches the newest only if it has
a relevance and is not among the oldest third. -/
theorem third_of_reaches {n i : Nat} {m newest : Message} (hi : i + 1 < n)
    (hbounds : ∀ id r, relevance id = some r → 0 ≤ r ∧ r ≤ 1)
    (h : scoreAt relevance n (n - 1) newest ≤ scoreAt relevance n i m) :
    (relevance m.id).isSome = true ∧ n - 1 ≤ 3 * i := by
  have hpos : (0 : Rat) < (n - 1 : Nat) := Nat.cast_pos.mpr (by omega)
  have hmax : max (n - 1) 1 = n - 1 := by omega
  have hnewest : 0 ≤ (relevance newest.id).getD 0 := by
    cases hr : relevance newest.id with
    | none => exact le_refl _
    | some r => exact (hbounds _ _ hr).1
  unfold scoreAt at h
  rw [hmax, div_self hpos.ne'] at h
  cases hr : relevance m.id with
  | none =>
    rw [hr] at h
    have hlt : (i : Rat) / (n - 1 : Nat) < 1 := by
      rw [div_lt_one hpos]
      exact Nat.cast_lt.mpr (by omega)
    simp only [Option.getD_none] at h
    linarith
  | some r =>
    rw [hr] at h
    have hle := (hbounds _ _ hr).2
    simp only [Option.getD_some] at h
    have hthird : 1 / 3 ≤ (i : Rat) / (n - 1 : Nat) := by linarith
    rw [div_le_div_iff₀ (by norm_num) hpos] at hthird
    have hcast : ((n - 1 : Nat) : Rat) ≤ ((3 * i : Nat) : Rat) := by
      push_cast
      linarith
    exact ⟨rfl, Nat.cast_le.mp hcast⟩

/-- Where only every second message has a relevance, counted back from the
newest, the newest stays. -/
theorem reaching_alternating (hlength : candidates.length ≤ 30)
    (hbounds : ∀ id r, relevance id = some r → 0 ≤ r ∧ r ≤ 1)
    (halternate : ∀ i (hi : i < candidates.length), (candidates.length - 1 - i) % 2 = 1 →
      relevance candidates[i].id = none) :
    reaching relevance candidates < 10 := by
  let places := candidates.zipIdx.dropLast
  have hscored : (scored relevance candidates).dropLast
      = places.map fun c => (scoreAt relevance candidates.length c.2 c.1, c.1) := by
    rw [scored, List.mapIdx_eq_zipIdx_map, ← List.map_dropLast]
  have hplaces : places.map Prod.snd = List.range (candidates.length - 1) := by
    rw [List.map_dropLast, List.zipIdx_map_snd, ← List.range_eq_range']
    cases candidates.length with
    | zero => rfl
    | succ n => rw [List.range_succ, List.dropLast_concat, Nat.add_sub_cancel]
  unfold reaching
  split
  next newest hnewest =>
    obtain ⟨m, hm⟩ : ∃ m, newest =
        (scoreAt relevance candidates.length (candidates.length - 1) m, m) := by
      rw [scored, List.getLast?_eq_getElem?, List.getElem?_mapIdx] at hnewest
      obtain ⟨m, -, hm⟩ := Option.map_eq_some_iff.mp hnewest
      exact ⟨m, by rw [← hm, List.length_mapIdx]⟩
    rw [hscored, List.countP_map]
    -- what is counted stands at an even distance, and not in the oldest third
    have hcounted : ∀ c ∈ places, ((fun other : Rat × Message => decide (newest.1 ≤ other.1)) ∘
        fun c => (scoreAt relevance candidates.length c.2 c.1, c.1)) c = true →
        (candidates.length - 1 - c.2) % 2 = 0 ∧ candidates.length - 1 ≤ 3 * c.2 := by
      intro c hc hreach
      have hplace : c.2 ∈ List.range (candidates.length - 1) :=
        hplaces ▸ List.mem_map_of_mem hc
      have hlt := List.mem_range.mp hplace
      have hmessage : candidates[c.2]? = some c.1 :=
        List.mk_mem_zipIdx_iff_getElem?.mp (List.dropLast_subset _ hc)
      have hle := of_decide_eq_true hreach
      rw [hm] at hle
      obtain ⟨hsome, hthird⟩ := third_of_reaches (by omega) hbounds hle
      refine ⟨?_, hthird⟩
      by_contra hodd
      have hnone := halternate c.2 (by omega) (by omega)
      rw [← Option.some.inj ((List.getElem?_eq_getElem (by omega)).symm.trans hmessage), hnone]
        at hsome
      exact absurd hsome (by simp)
    have hfew : ∀ n ≤ 30, (List.range (n - 1)).countP
        (fun i => decide ((n - 1 - i) % 2 = 0 ∧ n - 1 ≤ 3 * i)) < 10 := by
      decide
    refine Nat.lt_of_le_of_lt ?_ (hfew candidates.length hlength)
    rw [← hplaces, List.countP_map]
    exact List.countP_mono_left fun c hc hreach => decide_eq_true (hcounted c hc hreach)
  next => omega

/-- Fifteen turns, the question of each after its answer: the two share a time. -/
def fifteenTurns : List Message :=
  (List.range 15).flatMap fun turn =>
    [⟨2 * turn, 0, .assistant, [], none, turn⟩, ⟨2 * turn + 1, 0, .user, [], none, turn⟩]

/-- The answers have embeddings, and are on the subject of the new message. -/
def answersRelevant (id : Nat) : Option Rat := if id % 2 = 0 then some 1 else none

theorem fifteenTurns_window :
    IsWindow (candidatesOf fifteenTurns)
        (selectHistory answersRelevant (candidatesOf fifteenTurns)) ∧
      ∀ newest ∈ fifteenTurns.getLast?,
        newest ∈ selectHistory answersRelevant (candidatesOf fifteenTurns) ↔
          reaching answersRelevant (candidatesOf fifteenTurns) < 10 := by
  have hids : (fifteenTurns.map Message.id).Nodup := by decide
  have horder : Chronological fifteenTurns 0 fifteenTurns := by decide
  exact selectHistory_window hids horder answersRelevant

/-- The last question is left out. -/
theorem fifteenTurns_without_newest :
    ¬ ∀ (messages order : List Message) (conversation : Nat) (relevance : Nat → Option Rat),
      (messages.map Message.id).Nodup → Chronological messages conversation order →
      (∀ id r, relevance id = some r → 0 ≤ r ∧ r ≤ 1) →
      IsWindow (candidatesOf order) (selectHistory relevance (candidatesOf order)) ∧
        ∀ newest ∈ order.getLast?, newest ∈ selectHistory relevance (candidatesOf order) := by
  intro h
  have hbounds : ∀ id r, answersRelevant id = some r → 0 ≤ r ∧ r ≤ 1 := by
    intro id r hr
    unfold answersRelevant at hr
    split at hr
    next =>
      obtain rfl := Option.some.inj hr
      exact ⟨by norm_num, le_refl _⟩
    next => exact absurd hr (by simp)
  obtain ⟨-, hnewest⟩ := h fifteenTurns fifteenTurns 0 answersRelevant (by decide)
    (by decide) hbounds
  have hin := hnewest ⟨29, 0, .user, [], none, 14⟩ (by decide)
  exact absurd hin (by decide +kernel)

end Eidetic.Conversations
