import Eidetic.Lib.TwoRuns
import Eidetic.Upstream.Breaker

/-!
# Looking at the circuit breaker

`is_open` resets a circuit whose cooldown has passed, and `record_failure` does
not look at the cooldown. So it can matter to the next failure whether somebody
has looked: it trips the circuit again at once, or is the first of five. Runs
with the same failures and successes answer alike however they are polled
exactly when no failure comes to a circuit that is over its cooldown
(`unobserved_iff`).

A circuit is `Fresh` when nobody has reset it since the last success, and
`Expired` when somebody has after the cooldown; a circuit that keeps its promise
is one of the two, and which one is all that polls can change (`Tracks`). From
either the next answer is known from the failures and the time
(`isOpen_tripped`), and a prompt failure leads to the same circuit from both. A
late one does not: the expired circuit counts it as the first of five, and the
fresh one opens again. So the converse takes a run up to a late failure and adds
one poll before it (`prompt_of_unobserved`).
-/

namespace Eidetic.Upstream

open Eidetic.Lib

variable {μ : Type}

/-- A call of a run with additional polls, and whether it is one of them. -/
structure PolledCall (μ : Type) where
  call : BreakerCall μ
  extra : Bool

/-- A call that both runs have and that is answered. -/
def PolledCall.common (e : PolledCall μ) : Bool := e.call.op = .isOpen && !e.extra

/-- The calls of `record_failure` and `record_success` of a run. -/
structure Records (μ : Type) where
  calls : List (BreakerCall μ)
  records : ∀ call ∈ calls, call.op ≠ .isOpen
  clocked : Clocked calls

/-- A run with these records, in which only polls are additional. -/
structure Records.Polled (records : Records μ) (calls : List (PolledCall μ)) : Prop where
  records : (calls.map PolledCall.call).filter (fun call => call.op ≠ .isOpen) = records.calls
  clocked : Clocked (calls.map PolledCall.call)
  polls : ∀ e ∈ calls, e.extra = true → e.call.op = .isOpen

/-- A failure does not come to a circuit that has had enough of them and is over
its cooldown. -/
def Prompt (times : μ → List Rat) (call : BreakerCall μ) : Prop :=
  call.op = .recordFailure → threshold ≤ (times call.model).length →
    ∀ last ∈ (times call.model).getLast?, call.time - last ≤ cooldown

section Models

variable [DecidableEq μ]

/-- The circuits after a call, and what `is_open` answers there. -/
def breakerStep (s : μ → Circuit) (e : PolledCall μ) : (μ → Circuit) × Option Bool :=
  (nextAt BreakerCall.model Circuit.next s e.call, (isOpen e.call.time (s e.call.model)).1)

/-- The answers of the polls that both runs have. -/
def commonAnswers (calls : List (PolledCall μ)) : List (Option Bool) :=
  observed breakerStep PolledCall.common (fun _ => {}) calls

/-- However a run with these records is polled, the additional polls change no
answer of the others. -/
def Unobserved (records : Records μ) : Prop :=
  ∀ calls, records.Polled calls → commonAnswers calls = commonAnswers (calls.filter (!·.extra))

/-- The failures of each model since its last success. -/
abbrev noteAt : (μ → List Rat) → BreakerCall μ → μ → List Rat := nextAt BreakerCall.model noteCall

/-- No failure comes more than the cooldown after the fifth or a later one since
the model's last success. -/
def Records.Prompt (records : Records μ) : Prop :=
  Throughout noteAt Upstream.Prompt (fun _ => []) records.calls

end Models

/-! ## A failure between two polls -/

/-- A failure between two polls, the first of them additional. -/
def polledFailure (call : BreakerCall μ) : List (PolledCall μ) :=
  [⟨⟨.isOpen, call.model, call.time⟩, true⟩, ⟨call, false⟩, ⟨⟨.isOpen, call.model, call.time⟩, false⟩]

/-- A run in which only that failure is polled. -/
def pollAround (before : List (BreakerCall μ)) (middle : List (PolledCall μ))
    (after : List (BreakerCall μ)) : List (PolledCall μ) :=
  before.map (⟨·, false⟩) ++ middle ++ after.map (⟨·, false⟩)

theorem map_call (calls : List (BreakerCall μ)) :
    (calls.map fun c => (⟨c, false⟩ : PolledCall μ)).map PolledCall.call = calls := by
  rw [List.map_map]
  exact List.map_id calls

theorem polled_around {records : Records μ} {before after : List (BreakerCall μ)}
    {call : BreakerCall μ} (h : records.calls = before ++ call :: after) :
    records.Polled (pollAround before (polledFailure call) after) := by
  have hcalls : (pollAround before (polledFailure call) after).map PolledCall.call =
      before ++ [⟨.isOpen, call.model, call.time⟩, call, ⟨.isOpen, call.model, call.time⟩] ++
        after := by
    unfold pollAround
    rw [List.map_append, List.map_append, map_call, map_call]
    rfl
  have hrecords := records.records
  have hclocked := records.clocked
  rw [h] at hrecords hclocked
  refine ⟨?_, ?_, ?_⟩
  -- without the polls it is the given history again
  · have hall : (before ++ call :: after).filter (fun c => c.op ≠ .isOpen) =
        before ++ call :: after := by
      rw [List.filter_eq_self]
      exact fun c hc => decide_eq_true (hrecords c hc)
    have hcall : call.op ≠ .isOpen := hrecords call (by simp)
    rw [hcalls, h, ← hall, List.append_assoc, List.filter_append, List.filter_append,
      List.filter_append]
    simp [hcall]
  · rw [hcalls]
    -- the two polls come at the time of the call between them
    unfold Clocked at hclocked ⊢
    simp only [List.map_append, List.map_cons, List.pairwise_append, List.pairwise_cons,
      List.mem_map, List.mem_cons, List.mem_append] at hclocked ⊢
    grind
  · unfold pollAround polledFailure
    intro e he hextra
    simp only [List.mem_append, List.mem_map, List.mem_cons, List.not_mem_nil, or_false] at he
    rcases he with (⟨c, _, rfl⟩ | rfl | rfl | rfl) | ⟨c, _, rfl⟩
    · exact absurd hextra (by simp)
    · rfl
    · exact absurd hextra (by simp)
    · rfl
    · exact absurd hextra (by simp)

/-! ## What the answers are -/

/-- There are enough failures, the last of them recent. -/
def tripped (times : List Rat) (now : Rat) : Bool :=
  threshold ≤ times.length && times.getLast?.any fun last => now - last ≤ cooldown

theorem tripped_last {times : List Rat} {last : Rat} (h : times.getLast? = some last) (now : Rat) :
    tripped times now = (decide (threshold ≤ times.length) && decide (now - last ≤ cooldown)) := by
  unfold tripped
  rw [h]
  rfl

/-- Nobody has reset the circuit since the last success. -/
structure Fresh (c : Circuit) (times : List Rat) : Prop where
  count : c.failures.getD 0 = times.length
  opened : c.opened = true ↔ threshold ≤ times.length
  last : c.opened = true → c.openTime = times.getLast?

/-- Somebody has, after the cooldown. -/
structure Expired (c : Circuit) (times : List Rat) (now : Rat) : Prop where
  closed : c.opened = false
  enough : threshold ≤ times.length
  late : ∀ last ∈ times.getLast?, cooldown < now - last

theorem Fresh.init : Fresh {} [] := ⟨rfl, by decide, by decide⟩

theorem Fresh.recordFailure {c : Circuit} {times : List Rat} (h : Fresh c times) (now : Rat) :
    Fresh (recordFailure now c) (times ++ [now]) := by
  have hlength : (times ++ [now]).length = times.length + 1 := by
    rw [List.length_append, List.length_singleton]
  unfold Upstream.recordFailure
  dsimp only
  rw [h.count]
  split
  next henough =>
    refine ⟨hlength.symm, ⟨fun _ => hlength ▸ henough, fun _ => rfl⟩, fun _ => ?_⟩
    rw [List.getLast?_concat]
  next hfew =>
    have hclosed : ¬ c.opened = true :=
      fun hopen => hfew (Nat.le_succ_of_le (h.opened.mp hopen))
    refine ⟨hlength.symm, ⟨fun hopen => absurd hopen hclosed, ?_⟩, fun hopen => absurd hopen hclosed⟩
    intro henough
    exact absurd (hlength ▸ henough) hfew

theorem Fresh.recordSuccess (c : Circuit) : Fresh (recordSuccess c) [] :=
  ⟨rfl, by simp [Upstream.recordSuccess, threshold], by simp [Upstream.recordSuccess]⟩

theorem Expired.tripped {c : Circuit} {times : List Rat} {now later : Rat}
    (h : Expired c times now) (hlater : now ≤ later) : tripped times later = false := by
  cases hlast : times.getLast? with
  | none =>
    unfold Upstream.tripped
    rw [hlast, Option.any_none, Bool.and_false]
  | some last =>
    have hlate : ¬ later - last ≤ cooldown := by
      have := h.late last hlast
      linarith
    rw [tripped_last hlast, decide_eq_false hlate, Bool.and_false]

/-- The answer of a circuit that nobody has reset, or after its cooldown. -/
theorem isOpen_tripped {c : Circuit} {times : List Rat} {now later : Rat}
    (h : Fresh c times ∨ Expired c times now) (hlater : now ≤ later) :
    (isOpen later c).1 = some (tripped times later) := by
  rcases h with h | h
  · unfold isOpen
    split
    next hopen =>
      -- an open circuit keeps the time of the last failure, which decides the answer
      have henough : threshold ≤ times.length := h.opened.mp hopen
      rw [h.last hopen]
      cases hlast : times.getLast? with
      | none =>
        rw [List.getLast?_eq_none_iff.mp hlast] at henough
        exact absurd henough (by decide)
      | some last =>
        dsimp only
        rw [tripped_last hlast, decide_eq_true henough, Bool.true_and]
        split
        next hlate => rw [decide_eq_false (not_le.mpr hlate)]
        next hrecent => rw [decide_eq_true (le_of_not_gt hrecent)]
    next hclosed =>
      have hfew : ¬ threshold ≤ times.length := fun henough => hclosed (h.opened.mpr henough)
      simp [tripped, hfew]
  · rw [h.tripped hlater]
    unfold isOpen
    rw [if_neg (by rw [h.closed]; exact Bool.false_ne_true)]

/-- A poll leaves a fresh circuit, or one that is over its cooldown. -/
theorem isOpen_leaves {c : Circuit} {times : List Rat} {now later : Rat}
    (h : Fresh c times ∨ Expired c times now) (hlater : now ≤ later) :
    Fresh (isOpen later c).2 times ∨ Expired (isOpen later c).2 times later := by
  rcases h with h | h
  · unfold isOpen
    split
    next hopen =>
      split
      next => exact Or.inl h
      next t ht =>
        split
        -- after the cooldown the poll itself closes the circuit
        next hlate =>
          refine Or.inr ⟨rfl, h.opened.mp hopen, ?_⟩
          intro last hlast
          obtain rfl : t = last :=
            Option.some.inj (ht.symm.trans ((h.last hopen).trans hlast))
          exact hlate
        next => exact Or.inl h
    next => exact Or.inl h
  · right
    unfold isOpen
    rw [if_neg (by rw [h.closed]; exact Bool.false_ne_true)]
    refine ⟨h.closed, h.enough, ?_⟩
    intro last hlast
    have := h.late last hlast
    linarith

/-- Each circuit is fresh, or over its cooldown. -/
def Tracks (s : μ → Circuit) (times : μ → List Rat) (now : Rat) : Prop :=
  ∀ m, Fresh (s m) (times m) ∨ Expired (s m) (times m) now

theorem Tracks.later {s : μ → Circuit} {times : μ → List Rat} {now later : Rat}
    (h : Tracks s times now) (hlater : now ≤ later) : Tracks s times later := by
  intro m
  rcases h m with h | h
  · exact Or.inl h
  · refine Or.inr ⟨h.closed, h.enough, ?_⟩
    intro last hlast
    have := h.late last hlast
    linarith

theorem tracks_init (now : Rat) : Tracks (fun _ : μ => {}) (fun _ => []) now :=
  fun _ => Or.inl Fresh.init

variable [DecidableEq μ]

/-- The failures after a call, and what they say of the model. -/
def tripStep (times : μ → List Rat) (e : PolledCall μ) : (μ → List Rat) × Option Bool :=
  (noteAt times e.call, some (tripped (times e.call.model) e.call.time))

theorem Tracks.next {s : μ → Circuit} {times : μ → List Rat} {now : Rat} (h : Tracks s times now)
    {call : BreakerCall μ} (hlater : now ≤ call.time) (hprompt : Prompt times call) :
    Tracks (nextAt BreakerCall.model Circuit.next s call) (noteAt times call) call.time := by
  intro m
  by_cases hm : call.model = m
  · subst hm
    rw [nextAt_key, noteAt, nextAt_key]
    unfold Circuit.next noteCall
    -- a poll keeps the times, a failure adds to them, a success clears them
    cases hop : call.op with
    | isOpen => exact isOpen_leaves (h _) hlater
    | recordFailure =>
      rcases h call.model with hfresh | hexpired
      · exact Or.inl (hfresh.recordFailure call.time)
      · -- it would come after the cooldown
        exfalso
        have henough := hexpired.enough
        cases hlast : (times call.model).getLast? with
        | none =>
          rw [List.getLast?_eq_none_iff.mp hlast] at henough
          exact absurd henough (by decide)
        | some last =>
          have hlate := hexpired.late last hlast
          have hrecent := hprompt hop henough last hlast
          linarith
    | recordSuccess => exact Or.inl (Fresh.recordSuccess _)
  · rw [nextAt_of_ne s hm, noteAt, nextAt_of_ne times hm]
    exact h.later hlater m

/-- The answers follow from the failures alone. -/
theorem observed_tripped {s : μ → Circuit} {times : μ → List Rat} {now : Rat}
    (h : Tracks s times now) {calls : List (PolledCall μ)}
    (hclock : Clocked (calls.map PolledCall.call)) (hlater : ∀ e ∈ calls, now ≤ e.call.time)
    (hprompt : Throughout noteAt Prompt times (calls.map PolledCall.call)) :
    observed breakerStep PolledCall.common s calls =
      observed tripStep PolledCall.common times calls := by
  induction calls generalizing s times now with
  | nil => rfl
  | cons e calls ih =>
    obtain ⟨hhead, hclock⟩ := List.pairwise_cons.mp hclock
    have hnow : now ≤ e.call.time := hlater e (List.mem_cons_self ..)
    have hrest := ih (h.next hnow hprompt.1) hclock (fun other hother =>
      hhead _ (List.mem_map_of_mem (List.mem_map_of_mem hother))) hprompt.2
    have hanswer : (breakerStep s e).2 = (tripStep times e).2 := isOpen_tripped (h _) hnow
    rw [observed, observed, hanswer]
    exact if_congr Iff.rfl (congrArg (_ :: ·) hrest) hrest

/-! ## Polls -/

theorem noteAt_poll {times : μ → List Rat} {call : BreakerCall μ} (h : call.op = .isOpen) :
    noteAt times call = times := by
  funext m
  by_cases hm : call.model = m
  · subst hm
    rw [noteAt, nextAt_key]
    unfold noteCall
    rw [h]
  · exact nextAt_of_ne times hm

/-- Additional polls leave the failures, and so the other answers. -/
theorem observed_polls {calls : List (PolledCall μ)}
    (hpolls : ∀ e ∈ calls, e.extra = true → e.call.op = .isOpen) (times : μ → List Rat) :
    observed tripStep PolledCall.common times calls =
      observed tripStep PolledCall.common times (calls.filter (!·.extra)) := by
  induction calls generalizing times with
  | nil => rfl
  | cons e calls ih =>
    have hrest := ih fun other hother => hpolls other (List.mem_cons_of_mem _ hother)
    cases hextra : e.extra with
    | true =>
      have hpoll := hpolls e (List.mem_cons_self ..) hextra
      rw [List.filter_cons_of_neg (by simp [hextra]), observed,
        if_neg (by simp [PolledCall.common, hextra]), ← hrest times]
      unfold tripStep
      rw [noteAt_poll hpoll]
    | false =>
      rw [List.filter_cons_of_pos (by simp [hextra]), observed, observed, hrest]

/-- A condition on failures is met whether or not polls come between. -/
theorem prompt_records {times : μ → List Rat} {calls : List (BreakerCall μ)} :
    Throughout noteAt Prompt times calls ↔
      Throughout noteAt Prompt times (calls.filter fun call => call.op ≠ .isOpen) := by
  induction calls generalizing times with
  | nil => exact Iff.rfl
  | cons call calls ih =>
    by_cases hop : call.op = .isOpen
    · rw [List.filter_cons_of_neg (by simp [hop]), ← ih, Throughout, noteAt_poll hop]
      refine and_iff_right ?_
      intro hfailure
      rw [hop] at hfailure
      exact absurd hfailure (by decide)
    · rw [List.filter_cons_of_pos (by simp [hop]), Throughout, Throughout, ih]

/-- Whoever polls, the answers follow from the failures. -/
theorem commonAnswers_tripped {calls : List (PolledCall μ)}
    (hclock : Clocked (calls.map PolledCall.call))
    (hprompt : Throughout noteAt Prompt (fun _ => []) (calls.map PolledCall.call)) :
    commonAnswers calls = observed tripStep PolledCall.common (fun _ => []) calls := by
  unfold commonAnswers
  cases calls with
  | nil => rfl
  | cons e calls =>
    refine observed_tripped (tracks_init e.call.time) hclock ?_ hprompt
    intro other hother
    rcases List.mem_cons.mp hother with rfl | hother
    · exact le_refl _
    · exact (List.pairwise_cons.mp hclock).1 _ (List.mem_map_of_mem (List.mem_map_of_mem hother))

theorem unobserved_of_prompt {records : Records μ} (h : records.Prompt) : Unobserved records := by
  intro calls hcalls
  have hprompt : Throughout noteAt Prompt (fun _ => []) (calls.map PolledCall.call) := by
    rw [prompt_records, hcalls.records]
    exact h
  have hsub : ((calls.filter (!·.extra)).map PolledCall.call).Sublist (calls.map PolledCall.call) :=
    List.filter_sublist.map _
  have hsame : ((calls.filter (!·.extra)).map PolledCall.call).filter (fun call => call.op ≠ .isOpen) =
      (calls.map PolledCall.call).filter fun call => call.op ≠ .isOpen := by
    rw [List.filter_map, List.filter_map, List.filter_filter]
    refine congrArg _ (List.filter_congr fun e he => ?_)
    cases hextra : e.extra with
    | true => simp [hcalls.polls e he hextra]
    | false => simp
  rw [commonAnswers_tripped hcalls.clocked hprompt, observed_polls hcalls.polls,
    commonAnswers_tripped (hcalls.clocked.sublist (hsub.map _))]
  rw [prompt_records, hsame, ← prompt_records]
  exact hprompt

/-! ## A failure after the cooldown -/

/-- Without polls every circuit is fresh. -/
theorem fresh_records {s : μ → Circuit} {times : μ → List Rat} (h : ∀ m, Fresh (s m) (times m))
    {calls : List (BreakerCall μ)} (hcalls : ∀ call ∈ calls, call.op ≠ .isOpen) (m : μ) :
    Fresh (run (nextAt BreakerCall.model Circuit.next) s calls m) (run noteAt times calls m) := by
  induction calls generalizing s times with
  | nil => exact h m
  | cons call calls ih =>
    refine ih ?_ fun other hother => hcalls other (List.mem_cons_of_mem _ hother)
    intro k
    by_cases hk : call.model = k
    · subst hk
      rw [nextAt_key, noteAt, nextAt_key]
      unfold Circuit.next noteCall
      cases hop : call.op with
      | isOpen => exact absurd hop (hcalls call (List.mem_cons_self ..))
      | recordFailure => exact (h _).recordFailure call.time
      | recordSuccess => exact Fresh.recordSuccess _
    · rw [nextAt_of_ne s hk, noteAt, nextAt_of_ne times hk]
      exact h k

theorem run_breaker (s : μ → Circuit) (calls : List (PolledCall μ)) :
    run (fun s e => (breakerStep s e).1) s calls =
      run (nextAt BreakerCall.model Circuit.next) s (calls.map PolledCall.call) := by
  induction calls generalizing s with
  | nil => rfl
  | cons e calls ih => exact ih _

/-- Records answer nothing. -/
theorem commonAnswers_around {before after : List (BreakerCall μ)}
    (hbefore : ∀ c ∈ before, c.op ≠ .isOpen) (hafter : ∀ c ∈ after, c.op ≠ .isOpen)
    (middle : List (PolledCall μ)) :
    commonAnswers (pollAround before middle after) =
      observed breakerStep PolledCall.common (circuits before) middle := by
  have hhidden : ∀ {calls : List (BreakerCall μ)}, (∀ c ∈ calls, c.op ≠ .isOpen) →
      ∀ e ∈ calls.map fun c => (⟨c, false⟩ : PolledCall μ), e.common = false := by
    intro calls hcalls e he
    obtain ⟨c, hc, rfl⟩ := List.mem_map.mp he
    simp [PolledCall.common, hcalls c hc]
  unfold commonAnswers pollAround
  rw [observed_append, observed_append, observed_hidden (hhidden hbefore),
    observed_hidden (hhidden hafter), run_breaker, map_call, List.nil_append, List.append_nil]
  rfl

/-- Looked at after the cooldown, the circuit takes the failure as the first. -/
theorem polled_closed {c : Circuit} {times : List Rat} (h : Fresh c times) {last now : Rat}
    (henough : threshold ≤ times.length) (hlast : times.getLast? = some last)
    (hlate : cooldown < now - last) :
    (isOpen now (recordFailure now (isOpen now c).2)).1 = some false := by
  have hreset : (isOpen now c).2 = { c with opened := false, failures := some 0 } := by
    unfold isOpen
    rw [if_pos (h.opened.mpr henough), h.last (h.opened.mpr henough), hlast]
    dsimp only
    rw [if_pos hlate]
  rw [hreset]
  rfl

/-- Otherwise it opens again. -/
theorem unpolled_open {c : Circuit} {times : List Rat} (h : Fresh c times) {now : Rat}
    (henough : threshold ≤ times.length) : (isOpen now (recordFailure now c)).1 = some true := by
  have hopen : recordFailure now c = ⟨some (c.failures.getD 0 + 1), true, some now⟩ :=
    if_pos (by rw [h.count]; exact Nat.le_succ_of_le henough)
  rw [hopen]
  unfold isOpen
  rw [if_pos rfl]
  dsimp only
  rw [if_neg (by rw [sub_self]; decide)]

/-- An additional poll before a failure after the cooldown changes the answer after it. -/
theorem prompt_of_unobserved {records : Records μ} (h : Unobserved records) : records.Prompt := by
  by_contra hprompt
  obtain ⟨before, call, after, hsplit, _, hlate⟩ := exists_of_not_throughout hprompt
  unfold Upstream.Prompt at hlate
  push Not at hlate
  obtain ⟨hop, henough, last, hlast, hlate⟩ := hlate
  have hrecords := records.records
  rw [hsplit] at hrecords
  have hbefore : ∀ c ∈ before, c.op ≠ .isOpen := fun c hc => hrecords c (List.mem_append_left _ hc)
  have hafter : ∀ c ∈ after, c.op ≠ .isOpen := fun c hc =>
    hrecords c (List.mem_append_right _ (List.mem_cons_of_mem _ hc))
  have hfresh : Fresh (circuits before call.model) (run noteAt (fun _ => []) before call.model) :=
    fresh_records (fun _ => Fresh.init) hbefore call.model
  -- what is left without the additional poll before the failure
  have hfilter : (pollAround before (polledFailure call) after).filter (!·.extra) =
      pollAround before [⟨call, false⟩, ⟨⟨.isOpen, call.model, call.time⟩, false⟩] after := by
    have hkept : ∀ calls : List (BreakerCall μ),
        (calls.map fun c => (⟨c, false⟩ : PolledCall μ)).filter (!·.extra) =
          calls.map fun c => ⟨c, false⟩ := by
      intro calls
      rw [List.filter_eq_self]
      intro e he
      obtain ⟨c, _, rfl⟩ := List.mem_map.mp he
      rfl
    unfold pollAround
    rw [List.filter_append, List.filter_append, hkept, hkept]
    rfl
  have hsame := h _ (polled_around hsplit)
  rw [hfilter, commonAnswers_around hbefore hafter, commonAnswers_around hbefore hafter] at hsame
  have hfailure : ∀ c : Circuit, c.next call = recordFailure call.time c := by
    intro c
    unfold Circuit.next
    rw [hop]
  have hhidden : (⟨call, false⟩ : PolledCall μ).common = false := by
    simp [PolledCall.common, hop]
  -- polled first, the circuit has just been closed and the failure does not open it
  have hpolled : observed breakerStep PolledCall.common (circuits before) (polledFailure call) =
      [some false] := by
    rw [← polled_closed hfresh henough hlast hlate, ← hfailure]
    unfold polledFailure
    rw [observed, if_neg (by simp [PolledCall.common]), observed, if_neg (by simp [hhidden]),
      observed, if_pos (by rfl), observed]
    refine congrArg (fun c => [(isOpen call.time c).1]) ?_
    show nextAt _ _ _ call call.model = _
    rw [nextAt_key]
    have hpoll : nextAt BreakerCall.model Circuit.next (circuits before)
        ⟨.isOpen, call.model, call.time⟩ call.model =
          (circuits before call.model).next ⟨.isOpen, call.model, call.time⟩ := nextAt_key ..
    exact congrArg (Circuit.next · call) hpoll
  -- not polled, it is still open and the failure renews the cooldown
  have hunpolled : observed breakerStep PolledCall.common (circuits before)
      [⟨call, false⟩, ⟨⟨.isOpen, call.model, call.time⟩, false⟩] = [some true] := by
    have hopen : (isOpen call.time (recordFailure call.time (circuits before call.model))).1 =
        some true := unpolled_open hfresh henough
    rw [← hopen, ← hfailure]
    rw [observed, if_neg (by simp [hhidden]), observed, if_pos (by rfl), observed]
    refine congrArg (fun c => [(isOpen call.time c).1]) ?_
    show nextAt _ _ _ call call.model = _
    rw [nextAt_key]
  rw [hpolled, hunpolled] at hsame
  exact absurd hsame (by simp)

/-- Polls change no answer exactly when every failure is prompt. -/
theorem unobserved_iff (records : Records μ) : Unobserved records ↔ records.Prompt :=
  ⟨prompt_of_unobserved, unobserved_of_prompt⟩

/-- Five failures, and a sixth after the cooldown. -/
def lateFailure : Records Nat where
  calls := List.replicate 5 ⟨.recordFailure, 0, 0⟩ ++ [⟨.recordFailure, 0, 92⟩]
  records := by decide
  clocked := by
    unfold Clocked
    decide

theorem lateFailure_observed : ¬ ∀ records : Records Nat, Unobserved records := by
  intro h
  have hsame := h lateFailure [⟨⟨.recordFailure, 0, 0⟩, false⟩, ⟨⟨.recordFailure, 0, 0⟩, false⟩,
    ⟨⟨.recordFailure, 0, 0⟩, false⟩, ⟨⟨.recordFailure, 0, 0⟩, false⟩,
    ⟨⟨.recordFailure, 0, 0⟩, false⟩, ⟨⟨.isOpen, 0, 91⟩, true⟩, ⟨⟨.recordFailure, 0, 92⟩, false⟩,
    ⟨⟨.isOpen, 0, 93⟩, false⟩] ⟨by decide, by unfold Clocked; decide, by decide⟩
  revert hsame
  decide +kernel

end Eidetic.Upstream
