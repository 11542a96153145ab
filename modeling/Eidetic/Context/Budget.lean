import Eidetic.Context.Tier
import Eidetic.Lib.Staged
import Mathlib.Data.List.Dedup
import Mathlib.Data.List.Sort
import Mathlib.Data.Rat.Defs

/-!
# The context budget allocator

`apply_context_budget`: tier by tier, from the highest present one down, the
messages of a tier and their acks are dropped until the rest fits. At tier 1
the facts of low salience may be cut out of a message instead; this rewrites
a slot of the list that was passed in, so the model returns that list too.

The loop is characterised once, by `applyContextBudget_eq`: the flags are
those of the highest stage that fits, down to stage 2, and below that the
ones of `userStateTrim`. The promises about the trimmed list are read off it.

The loop runs over the tiers that are present, from the highest down, and stops
at the first stage whose cost fits. Its invariant is that the flags on entry are
those of a stage `u` which does not fit, and that the tiers still to come are
the present ones below `u` (`tierLoop_eq`). Stages between which no tier is
present are the same, so the first present stage that fits is the highest that
does at all (`cutAt_absent`).

Stage 1 is special. The source cuts the lines of low salience out of a user
state and keeps the message, if anything is left of it; `rewrittenAt` says which
slots that happens to, and `userStateTrim` is the whole of the stage. The slots
it writes are in the drop set of tier 1 (`dropSet_of_rewrittenAt`), so nothing
outside changes.
-/

namespace Eidetic.Context

open Eidetic.Lib Eidetic.Py

/-- `fact_saliences`, empty when it is `None`. -/
abbrev Saliences := List (Text × Rat)

/-- `fact_saliences.get(fact, 1.0)`. -/
def salienceOf (saliences : Saliences) (fact : Text) : Rat := (saliences.lookup fact).getD 1

/-- A line of the user state is kept when it is blank or salient enough. -/
def keepsFact (saliences : Saliences) (line : Text) : Bool :=
  (strip line).isEmpty || decide (1 / 2 ≤ salienceOf saliences (strip line))

/-- `_rebuild_user_state`; `none` when nothing changed. -/
def rebuildUserState (content : Text) (saliences : Saliences) : Option Text :=
  let header := (splitLines content).headD []
  let facts := (splitLines content).tail
  let high := facts.filter (keepsFact saliences)
  if facts.all (keepsFact saliences) then none
  else some (strip (if header.isEmpty then joinLines high else joinLines (header :: high)))

/-- `int(context_window * 0.1)`: the double product truncates to the quotient
for every window below `2 ^ 50` tokens. -/
def tenthOf (contextWindow : Int) : Int := Int.tdiv contextWindow 10

/-- `context_window - reserve`. -/
def budgetOf (contextWindow maxOutputTokens : Int) : Int :=
  contextWindow - (maxOutputTokens + tenthOf contextWindow)

/-- The list that was passed in, as it is now, and the `keep` flags. -/
structure Trim where
  messages : List Message
  keep : Nat → Bool

/-- `[m for m, k in zip(messages, keep) if k]`. -/
def Trim.result (t : Trim) : List Message := keepBy t.keep t.messages

/-- What the kept messages cost. -/
def Trim.cost (t : Trim) : Nat := tokensOf t.result

/-- `{**m, "content": s}`. -/
def Message.setContent (m : Message) (s : Text) : Message := { m with content := some (.text s) }

/-- `_rebuild_user_state` of the message at an index of the drop set. Such a
message always has a text content: it has a tier, or it is an ack. -/
def rebuiltAt (messages : List Message) (saliences : Saliences) (drop : Nat → Bool)
    (i : Nat) : Option Text :=
  match drop i, messages[i]? with
  | true, some m =>
    match m.getContent with
    | .text s => rebuildUserState s saliences
    | .parts _ => none
  | _, _ => none

/-- The partial drop: a slot with something left is rewritten and kept, one
with nothing left is not kept. The rounds of the loop over `drop` do not
depend on each other. -/
def rewriteSlots (saliences : Saliences) (drop : Nat → Bool) (t : Trim) : Trim where
  messages := t.messages.mapIdx fun i m =>
    match rebuiltAt t.messages saliences drop i with
    | some (c :: s) => m.setContent (c :: s)
    | _ => m
  keep i :=
    match rebuiltAt t.messages saliences drop i with
    | some (_ :: _) => true
    | some [] => false
    | none => t.keep i

/-- What the partial drop leaves in the drop set. -/
def stillDropped (saliences : Saliences) (drop : Nat → Bool) (t : Trim) (i : Nat) : Bool :=
  drop i && match rebuiltAt t.messages saliences drop i with
    | some (_ :: _) => false
    | _ => true

/-- `new_keep`. -/
def Trim.drop (t : Trim) (drop : Nat → Bool) : Trim :=
  { t with keep := fun i => t.keep i && !drop i }

/-- The loop over the tiers. The drop sets are those of the list passed in:
slots are rewritten at tier 1 only, the last one before tier 0. -/
def tierLoop (messages : List Message) (budget : Int) (saliences : Saliences) :
    List Nat → Trim → Trim
  | [], t => t
  | tier :: rest, t =>
    if tier = 0 then t
    else if tier = 1 ∧ saliences ≠ [] then
      let drop := dropSet messages tier
      let t' := rewriteSlots saliences drop t
      let left := stillDropped saliences drop t
      if (List.range messages.length).all (fun i => !left i) ∧ (t'.cost : Int) ≤ budget then t'
      else if ((t'.drop left).cost : Int) ≤ budget then t'.drop left
      else tierLoop messages budget saliences rest (t'.drop left)
    else
      let t' := t.drop (dropSet messages tier)
      if (t'.cost : Int) ≤ budget then t' else tierLoop messages budget saliences rest t'

/-- `sorted(tiers.keys(), reverse=True)`. -/
def presentTiers (messages : List Message) : List Nat :=
  ((List.range messages.length).map (tierAt messages)).dedup.insertionSort (· ≥ ·)

/-- `apply_context_budget`; the list it returns is the `result`. -/
def applyContextBudget (messages : List Message) (contextWindow maxOutputTokens : Int)
    (saliences : Saliences) : Trim :=
  let budget := budgetOf contextWindow maxOutputTokens
  if messages.isEmpty then ⟨messages, fun _ => true⟩
  else if (tokensOf messages : Int) ≤ budget then ⟨messages, fun _ => true⟩
  else tierLoop messages budget saliences (presentTiers messages) ⟨messages, fun _ => true⟩

/-! ## The user-state stage -/

/-- The text the partial drop of tier 1 writes into a slot, if it does. -/
def rewrittenAt (messages : List Message) (saliences : Saliences) (i : Nat) : Option Text :=
  if saliences = [] then none
  else (rebuiltAt messages saliences (dropSet messages 1) i).filter fun s => !s.isEmpty

/-- A message with its content replaced, if there is a text to replace it. -/
def Message.update (m : Message) : Option Text → Message
  | some s => m.setContent s
  | none => m

@[simp] theorem Message.update_none (m : Message) : m.update none = m := rfl

@[simp] theorem Message.update_some (m : Message) (s : Text) :
    m.update (some s) = m.setContent s := rfl

@[simp] theorem Message.update_role (m : Message) (s : Option Text) :
    (m.update s).role = m.role := by
  cases s <;> rfl

@[simp] theorem Message.update_toolCalls (m : Message) (s : Option Text) :
    (m.update s).toolCalls = m.toolCalls := by
  cases s <;> rfl

@[simp] theorem Message.update_toolCallId (m : Message) (s : Option Text) :
    (m.update s).toolCallId = m.toolCallId := by
  cases s <;> rfl

/-- What tier 1 leaves: the other tiers' messages but for the rewritten slots. -/
def userStateTrim (messages : List Message) (saliences : Saliences) : Trim where
  messages := messages.mapIdx fun i m => m.update (rewrittenAt messages saliences i)
  keep i := (rewrittenAt messages saliences i).isSome || survives messages 1 i

theorem Trim.ext {t t' : Trim} (hm : t.messages = t'.messages)
    (hk : ∀ i, t.keep i = t'.keep i) : t = t' := by
  cases t
  cases t'
  have : _ = _ := funext hk
  simp_all

theorem rebuiltAt_eq_none {messages : List Message} {saliences : Saliences} {drop : Nat → Bool}
    {i : Nat} (h : drop i = false) : rebuiltAt messages saliences drop i = none := by
  unfold rebuiltAt
  rw [h]

/-- Only a slot of the tier-1 drop set is rewritten. -/
theorem dropSet_of_rewrittenAt {messages : List Message} {saliences : Saliences} {i : Nat}
    (h : (rewrittenAt messages saliences i).isSome) : dropSet messages 1 i = true := by
  by_contra hd
  unfold rewrittenAt at h
  rw [rebuiltAt_eq_none (by simpa using hd)] at h
  split at h <;> simp at h

theorem rewrittenAt_of_not_dropSet {messages : List Message} {saliences : Saliences} {i : Nat}
    (h : dropSet messages 1 i = false) : rewrittenAt messages saliences i = none := by
  cases hr : rewrittenAt messages saliences i with
  | none => rfl
  | some s =>
    rw [dropSet_of_rewrittenAt (by rw [hr]; rfl : (rewrittenAt messages saliences i).isSome)] at h
    exact absurd h (by simp)

/-- Without rewriting the user-state stage is stage 1. -/
theorem userStateTrim_of_none {messages : List Message} {saliences : Saliences}
    (h : ∀ i, rewrittenAt messages saliences i = none) :
    userStateTrim messages saliences = ⟨messages, survives messages 1⟩ := by
  refine Trim.ext ?_ fun i => ?_
  · apply List.ext_getElem?
    intro i
    simp [userStateTrim, h, List.getElem?_mapIdx]
  · simp [userStateTrim, h]

/-- A list without tier 1 has no slot to rewrite. -/
theorem rewrittenAt_of_absent {messages : List Message} (saliences : Saliences)
    (h : ∀ i, tierAt messages i ≠ 1) (i : Nat) : rewrittenAt messages saliences i = none := by
  refine rewrittenAt_of_not_dropSet ?_
  cases hdrop : dropSet messages 1 i with
  | false => rfl
  | true =>
    rcases Bool.or_eq_true_iff.mp hdrop with htier | hack
    · exact absurd (by simpa using htier) (h i)
    · obtain ⟨j, _, hj, _⟩ := ackedFrom_iff.mp hack
      exact absurd (by simpa using hj) (h j)

/-- The partial drop of tier 1, and what is dropped after it, is the
user-state stage. -/
theorem rewriteSlots_drop {messages : List Message} {saliences : Saliences} (hs : saliences ≠ []) :
    (rewriteSlots saliences (dropSet messages 1) ⟨messages, survives messages 2⟩).drop
        (stillDropped saliences (dropSet messages 1) ⟨messages, survives messages 2⟩)
      = userStateTrim messages saliences := by
  refine Trim.ext ?_ fun i => ?_
  · show List.mapIdx _ messages = List.mapIdx _ messages
    congr 1
    funext i m
    unfold rewrittenAt
    rw [if_neg hs]
    rcases rebuiltAt messages saliences (dropSet messages 1) i with _ | _ | ⟨c, s⟩ <;> rfl
  · show ((rewriteSlots _ _ _).keep i && !stillDropped _ _ _ i) = (Option.isSome _ || _)
    rw [survives_succ messages 1 i]
    unfold rewrittenAt rewriteSlots stillDropped
    rw [if_neg hs]
    dsimp only
    cases hd : dropSet messages 1 i with
    | false =>
      rw [rebuiltAt_eq_none hd]
      simp
    | true => rcases rebuiltAt messages saliences (dropSet messages 1) i with _ | _ | ⟨c, s⟩ <;> simp

/-- A drop set lies inside the list. -/
theorem lt_length_of_dropSet {messages : List Message} {tier i : Nat} (h1 : 1 ≤ tier)
    (h : dropSet messages tier i = true) : i < messages.length := by
  rcases Bool.or_eq_true_iff.mp h with htier | hack
  · have : tierAt messages i = tier := by simpa using htier
    exact lt_length_of_tierAt (by omega)
  · obtain ⟨m, hm, _⟩ := isAck_of_ackedFrom hack
    exact (List.getElem?_eq_some_iff.mp hm).1

/-- With nothing left in the drop set the early return gives the same trim. -/
theorem drop_of_noneLeft {messages : List Message} {saliences : Saliences} {t t' : Trim}
    (h : (List.range messages.length).all
      (fun i => !stillDropped saliences (dropSet messages 1) t i) = true) :
    t'.drop (stillDropped saliences (dropSet messages 1) t) = t' := by
  refine Trim.ext ?_ fun i => ?_
  · rfl
  · show (t'.keep i && !stillDropped _ _ _ i) = t'.keep i
    have hno : stillDropped saliences (dropSet messages 1) t i = false := by
      rcases Nat.lt_or_ge i messages.length with hlt | hge
      · simpa using List.all_eq_true.mp h i (List.mem_range.mpr hlt)
      · unfold stillDropped
        cases hd : dropSet messages 1 i with
        | false => rfl
        | true => exact absurd (lt_length_of_dropSet (by omega) hd) (by omega)
    rw [hno]
    simp

/-! ## The loop -/

theorem mem_presentTiers {messages : List Message} {τ : Nat} :
    τ ∈ presentTiers messages ↔ ∃ i, i < messages.length ∧ tierAt messages i = τ := by
  unfold presentTiers
  rw [List.mem_insertionSort, List.mem_dedup]
  simp

theorem presentTiers_pairwise (messages : List Message) :
    (presentTiers messages).Pairwise (· > ·) := by
  have hge : (presentTiers messages).Pairwise (· ≥ ·) := List.pairwise_insertionSort _ _
  have hne : (presentTiers messages).Pairwise (· ≠ ·) :=
    ((List.perm_insertionSort _ _).nodup_iff).mpr (List.nodup_dedup _)
  exact (hge.and hne).imp fun ⟨hle, hne⟩ => by omega

/-- Below tier 1 nothing is left to do. -/
theorem tierLoop_zero {messages : List Message} {budget : Int} {saliences : Saliences}
    {rest : List Nat} (h : ∀ τ ∈ rest, τ = 0) (t : Trim) :
    tierLoop messages budget saliences rest t = t := by
  cases rest with
  | nil => rfl
  | cons τ rest => rw [tierLoop, if_pos (h τ (List.mem_cons_self ..))]

/-- Stages between which no tier is present cost the same. -/
theorem costAt_eq_of_absent {messages : List Message} {t u : Nat} (htu : t ≤ u) (h1 : 1 ≤ t)
    (habs : ∀ i, i < messages.length → tierAt messages i < u → tierAt messages i < t) :
    costAt messages t = costAt messages u := by
  unfold costAt keepAt
  rw [show survives messages t = survives messages u from
    funext (survives_eq_of_absent htu habs h1)]

/-- The stages above the next present tier do not fit when stage `u` does not. -/
theorem cutAt_absent {messages : List Message} {budget : Int} {t u : Nat} (htu : t ≤ u)
    (habs : ∀ i, i < messages.length → tierAt messages i < u → tierAt messages i ≤ t)
    (hover : ¬ (costAt messages u : Int) ≤ budget) :
    cutAt (costAt messages) budget u = cutAt (costAt messages) budget t := by
  apply cutAt_skip htu
  intro s hts hsu
  rw [costAt_eq_of_absent hsu (by omega)
    fun i hi hlt => Nat.lt_of_le_of_lt (habs i hi hlt) hts]
  exact hover

/-- What the loop makes of the tiers below `u` once stage `u` is over budget. -/
def loopEnd (messages : List Message) (budget : Int) (saliences : Saliences) (u : Nat) : Trim :=
  if 2 ≤ cutAt (costAt messages) budget u then
    ⟨messages, survives messages (cutAt (costAt messages) budget u)⟩
  else userStateTrim messages saliences

/-- At tier 1 the user state is rewritten, and only tier 0 is left. -/
theorem tierLoop_userState {messages : List Message} {budget : Int} {saliences : Saliences}
    {rest : List Nat} (hrest : ∀ x ∈ rest, x = 0) :
    tierLoop messages budget saliences (1 :: rest) ⟨messages, survives messages 2⟩
      = userStateTrim messages saliences := by
  have htail : ∀ t, tierLoop messages budget saliences rest t = t := tierLoop_zero hrest
  rw [tierLoop, if_neg (by decide)]
  by_cases hs : saliences = []
  · have hend : userStateTrim messages saliences
        = (Trim.mk messages (survives messages 2)).drop (dropSet messages 1) := by
      rw [userStateTrim_of_none fun i => by rw [rewrittenAt, if_pos hs]]
      refine Trim.ext ?_ fun i => ?_
      · rfl
      · exact survives_succ messages 1 i
    rw [if_neg (by simp [hs])]
    show (if _ then _ else _) = _
    rw [htail, ite_self, hend]
  · rw [if_pos ⟨rfl, hs⟩]
    show (if _ then _ else if _ then _ else _) = _
    rw [htail, ite_self, rewriteSlots_drop hs]
    split
    next hleft =>
      rw [← rewriteSlots_drop hs]
      exact (drop_of_noneLeft hleft.1).symm
    next => rfl

/-- The loop invariant: the flags on entry are those of stage `u`, which does
not fit, and the tiers still to come are the present ones below `u`. -/
theorem tierLoop_eq {messages : List Message} {budget : Int} {saliences : Saliences}
    (hne : messages ≠ []) : ∀ (rest : List Nat) (u : Nat), 2 ≤ u → rest.Pairwise (· > ·) →
      (∀ τ ∈ rest, τ < u) →
      (∀ i, i < messages.length → tierAt messages i < u → tierAt messages i ∈ rest) →
      ¬ (costAt messages u : Int) ≤ budget →
      tierLoop messages budget saliences rest ⟨messages, survives messages u⟩
        = loopEnd messages budget saliences u := by
  intro rest
  induction rest with
  | nil =>
    intro u hu _ _ hcover _
    -- the last message is of tier 0, so tier 0 is still to come
    have hlen := List.length_pos_of_ne_nil hne
    have hlast : tierAt messages (messages.length - 1) = 0 := tierAt_last (by omega)
    exact absurd (hcover (messages.length - 1) (by omega) (by omega)) (by simp)
  | cons τ rest ih =>
    intro u hu hsorted hbelow hcover hover
    rw [List.pairwise_cons] at hsorted
    obtain ⟨hhead, hrest⟩ := hsorted
    have hτ := hbelow τ (List.mem_cons_self ..)
    -- below stage `u` the highest present tier is `τ`
    have hle : ∀ i, i < messages.length → tierAt messages i < u → tierAt messages i ≤ τ := by
      intro i hi hlt
      rcases List.mem_cons.mp (hcover i hi hlt) with heq | hmem
      · exact Nat.le_of_eq heq
      · exact Nat.le_of_lt (hhead _ hmem)
    have hcut := cutAt_absent (Nat.le_of_lt hτ) hle hover
    have hstage : survives messages u = survives messages (τ + 1) :=
      (funext (survives_eq_of_absent hτ
        (fun i hi hlt => Nat.lt_succ_of_le (hle i hi hlt)) (by omega))).symm
    rcases Nat.lt_or_ge τ 2 with hlow | hhigh
    · have hzero : ¬ 2 ≤ cutAt (costAt messages) budget u := by
        have := cutAt_le (costAt messages) budget τ
        omega
      rw [loopEnd, if_neg hzero]
      rcases Nat.eq_zero_or_pos τ with h0 | h1
      · -- only tier 0 is left: nothing is dropped, and there is no tier 1 to rewrite
        have habs : ∀ i, tierAt messages i ≠ 1 := by
          intro i hi
          have := hle i (lt_length_of_tierAt (by omega)) (by omega)
          omega
        rw [tierLoop, if_pos h0, userStateTrim_of_none (rewrittenAt_of_absent saliences habs),
          hstage, h0]
      · have hτ1 : τ = 1 := by omega
        subst hτ1
        rw [hstage]
        exact tierLoop_userState fun x hx => by have := hhead x hx; omega
    · have htrim : (Trim.mk messages (survives messages u)).drop (dropSet messages τ)
          = ⟨messages, survives messages τ⟩ := by
        refine Trim.ext ?_ fun i => ?_
        · rfl
        · show (survives messages u i && !dropSet messages τ i) = _
          rw [hstage, ← survives_succ]
      rw [tierLoop, if_neg (by omega), if_neg (by omega)]
      show (if _ then _ else _) = _
      rw [htrim]
      show (if (costAt messages τ : Int) ≤ budget then _ else _) = _
      split
      next hfit => rw [loopEnd, hcut, cutAt_eq_top hfit, if_pos hhigh]
      next hno =>
        rw [ih τ hhigh hrest hhead ?_ hno, loopEnd, loopEnd, hcut]
        intro i hi hlt
        rcases List.mem_cons.mp (hcover i hi (by omega)) with heq | hmem
        · omega
        · exact hmem

/-- What `apply_context_budget` does, in one line: the flags of the highest
stage that fits, or the user-state stage when not even stage 2 does. -/
theorem applyContextBudget_eq (messages : List Message) (contextWindow maxOutputTokens : Int)
    (saliences : Saliences) :
    applyContextBudget messages contextWindow maxOutputTokens saliences
      = loopEnd messages (budgetOf contextWindow maxOutputTokens) saliences 9 := by
  have hall : (fun _ : Nat => true) = survives messages 9 :=
    funext fun i => (survives_nine messages (Nat.le_refl _) i).symm
  unfold applyContextBudget
  rw [hall]
  show (if _ then _ else if _ then _ else _) = _
  split
  next hnil =>
    -- the empty list costs nothing and has nothing to drop
    have hnil : messages = [] := by simpa using hnil
    have habs : ∀ i, tierAt messages i ≠ 1 := by
      intro i hi
      have : i < messages.length := lt_length_of_tierAt (by omega)
      simp [hnil] at this
    have hstage : ∀ t, 1 ≤ t → survives messages 9 = survives messages t := by
      intro t ht
      ext i
      rw [Bool.eq_iff_iff, survives_iff, survives_iff]
      simp [hnil, tierAt]
      omega
    unfold loopEnd
    split
    next h2 => exact congrArg (Trim.mk messages) (hstage _ (by omega))
    next => rw [userStateTrim_of_none (rewrittenAt_of_absent saliences habs), ← hstage 1 (by omega)]
  next hne =>
    split
    next hfit =>
      have hcut : cutAt (costAt messages) (budgetOf contextWindow maxOutputTokens) 9 = 9 :=
        cutAt_eq_top (by rw [costAt_nine messages (Nat.le_refl _)]; exact hfit)
      rw [loopEnd, hcut, if_pos (by omega)]
    next hover =>
      refine tierLoop_eq (by simpa using hne) _ 9 (by omega) (presentTiers_pairwise messages)
        (fun τ hτ => ?_) (fun i hi _ => mem_presentTiers.mpr ⟨i, hi, rfl⟩) ?_
      · obtain ⟨i, _, hi⟩ := mem_presentTiers.mp hτ
        have := tierAt_le messages i
        omega
      · rw [costAt_nine messages (Nat.le_refl _)]
        exact hover

end Eidetic.Context
