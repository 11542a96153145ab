import Eidetic.Lib.Keyed
import Mathlib.Algebra.Order.Ring.Rat
import Mathlib.Tactic.Linarith

/-!
# The circuit breaker

`is_open`, `record_failure` and `record_success` on what the three dictionaries
have for a model. The count is at most the number of failures since the last
success, and a circuit that is open has the time of the last of them
(`Caused`), so it opens only for cause (`opens_for_cause`).

The three dictionaries are one state per model, and the calls for other models
can be left out (`answer_filter`), so a run is about one circuit. `Caused`
relates what the circuit has to the failures of the run since the last success.
Each of the three operations keeps it, `is_open` although it resets a circuit
whose cooldown has passed: its count is then smaller than the number of
failures, never larger. What `is_open` answers is read off it (`Caused.answer`).
-/

namespace Eidetic.Upstream

open Eidetic.Lib

/-- `_THRESHOLD`. -/
def threshold : Nat := 5

/-- `_COOLDOWN`. -/
def cooldown : Rat := 90

/-- What `_failures`, `_open` and `_open_time` have for a model. -/
structure Circuit where
  failures : Option Nat := none
  opened : Bool := false
  openTime : Option Rat := none
deriving DecidableEq

/-- The answer of `is_open`, `none` for the `KeyError` of an `_open` without an
`_open_time`. -/
def isOpen (now : Rat) (c : Circuit) : Option Bool × Circuit :=
  if c.opened then
    match c.openTime with
    | none => (none, c)
    | some t =>
      if cooldown < now - t then (some false, { c with opened := false, failures := some 0 })
      else (some true, c)
  else (some false, c)

def recordFailure (now : Rat) (c : Circuit) : Circuit :=
  let n := c.failures.getD 0 + 1
  if threshold ≤ n then { failures := some n, opened := true, openTime := some now }
  else { c with failures := some n }

def recordSuccess (c : Circuit) : Circuit := { c with failures := some 0, opened := false }

inductive BreakerOp
  | isOpen
  | recordFailure
  | recordSuccess
deriving DecidableEq

/-- A call, with what `time.time()` answers in it. -/
structure BreakerCall (μ : Type) where
  op : BreakerOp
  model : μ
  time : Rat
deriving DecidableEq

variable {μ : Type}

def Circuit.next (c : Circuit) (call : BreakerCall μ) : Circuit :=
  match call.op with
  | .isOpen => (isOpen call.time c).2
  | .recordFailure => recordFailure call.time c
  | .recordSuccess => recordSuccess c

/-- The clock does not go back. -/
def Clocked (calls : List (BreakerCall μ)) : Prop :=
  (calls.map BreakerCall.time).Pairwise (· ≤ ·)

/-- The times of the failures since the last success, after one more call. -/
def noteCall (times : List Rat) (call : BreakerCall μ) : List Rat :=
  match call.op with
  | .isOpen => times
  | .recordFailure => times ++ [call.time]
  | .recordSuccess => []

section Models

variable [DecidableEq μ]

/-- The circuits after some calls. -/
def circuits (calls : List (BreakerCall μ)) : μ → Circuit :=
  run (nextAt BreakerCall.model Circuit.next) (fun _ => {}) calls

/-- What `is_open` answers after some calls. -/
def answer (calls : List (BreakerCall μ)) (m : μ) (now : Rat) : Option Bool :=
  (isOpen now (circuits calls m)).1

/-- The times of a model's failures since its last success. -/
def failuresSince (m : μ) (calls : List (BreakerCall μ)) : List Rat :=
  run noteCall [] (calls.filter fun call => call.model = m)

/-- How many failures of a model there are among the calls. -/
def failureCount (m : μ) (calls : List (BreakerCall μ)) : Nat :=
  calls.countP fun call => call.model = m ∧ call.op = .recordFailure

/-- A call of `is_open` is answered, with yes only for cause. -/
structure ForCause (calls : List (BreakerCall μ)) (m : μ) (now : Rat) : Prop where
  answered : answer calls m now ≠ none
  failures : answer calls m now = some true → threshold ≤ (failuresSince m calls).length
  recent : answer calls m now = some true →
    ∃ last, (failuresSince m calls).getLast? = some last ∧ last ≤ now ∧ now - last ≤ cooldown
  others : answer calls m now = answer (calls.filter fun call => call.model = m) m now
  success : ∀ earlier call later, calls = earlier ++ call :: later → call.op = .recordSuccess →
    call.model = m → failureCount m later < threshold → answer calls m now = some false

end Models

/-! ## One circuit -/

/-- The count is of failures since the last success, and an open circuit has
enough of them and the time of the last. -/
structure Caused (c : Circuit) (times : List Rat) : Prop where
  count : c.failures.getD 0 ≤ times.length
  enough : c.opened = true → threshold ≤ c.failures.getD 0
  last : c.opened = true → c.openTime = times.getLast?

theorem Caused.isOpen {c : Circuit} {times : List Rat} (h : Caused c times) (now : Rat) :
    Caused (isOpen now c).2 times := by
  unfold Upstream.isOpen
  split
  next =>
    split
    next => exact h
    next =>
      split
      next => exact ⟨Nat.zero_le _, by simp, by simp⟩
      next => exact h
  next => exact h

theorem Caused.recordFailure {c : Circuit} {times : List Rat} (h : Caused c times) (now : Rat) :
    Caused (recordFailure now c) (times ++ [now]) := by
  have hcount : c.failures.getD 0 + 1 ≤ (times ++ [now]).length := by
    rw [List.length_append]
    exact Nat.succ_le_succ h.count
  unfold Upstream.recordFailure
  dsimp only
  split
  next henough => exact ⟨hcount, fun _ => henough, fun _ => by rw [List.getLast?_concat]⟩
  next hfew =>
    -- an open circuit has enough failures already
    have hclosed : ¬ c.opened = true := fun hopen => hfew (Nat.le_succ_of_le (h.enough hopen))
    exact ⟨hcount, fun hopen => absurd hopen hclosed, fun hopen => absurd hopen hclosed⟩

theorem Caused.next {c : Circuit} {times : List Rat} (h : Caused c times) (call : BreakerCall μ) :
    Caused (c.next call) (noteCall times call) := by
  unfold Circuit.next noteCall
  cases call.op with
  | isOpen => exact h.isOpen call.time
  | recordFailure => exact h.recordFailure call.time
  | recordSuccess => exact ⟨Nat.zero_le _, by simp [recordSuccess], by simp [recordSuccess]⟩

theorem Caused.run {c : Circuit} {times : List Rat} (h : Caused c times)
    (calls : List (BreakerCall μ)) : Caused (run Circuit.next c calls) (run noteCall times calls) := by
  induction calls generalizing c times with
  | nil => exact h
  | cons call calls ih => exact ih (h.next call)

/-- A circuit that answers yes has enough failures, the last of them recent. -/
theorem Caused.answer {c : Circuit} {times : List Rat} (h : Caused c times) (now : Rat) :
    (Upstream.isOpen now c).1 = some false ∨
      (Upstream.isOpen now c).1 = some true ∧ threshold ≤ times.length ∧
        ∃ last, times.getLast? = some last ∧ now - last ≤ cooldown := by
  unfold Upstream.isOpen
  split
  next hopen =>
    have henough : threshold ≤ times.length := Nat.le_trans (h.enough hopen) h.count
    split
    next hnone =>
      -- there is a failure, so there is a last one
      rw [h.last hopen, List.getLast?_eq_none_iff] at hnone
      rw [hnone] at henough
      exact absurd henough (by decide)
    next t ht =>
      split
      next => exact Or.inl rfl
      next hrecent =>
        exact Or.inr ⟨rfl, henough, t, (h.last hopen).symm.trans ht, le_of_not_gt hrecent⟩
  next => exact Or.inl rfl

theorem noteCall_subset {times : List Rat} {call : BreakerCall μ} {t : Rat}
    (h : t ∈ noteCall times call) : t ∈ times ∨ t = call.time := by
  unfold noteCall at h
  split at h
  next => exact Or.inl h
  next =>
    rcases List.mem_append.mp h with h | h
    · exact Or.inl h
    · exact Or.inr (List.mem_singleton.mp h)
  next => exact absurd h List.not_mem_nil

theorem mem_run_noteCall {times : List Rat} {calls : List (BreakerCall μ)} {t : Rat}
    (h : t ∈ run noteCall times calls) : t ∈ times ∨ ∃ call ∈ calls, call.time = t := by
  induction calls generalizing times with
  | nil => exact Or.inl h
  | cons call calls ih =>
    rcases ih h with ht | ⟨other, hother, rfl⟩
    · rcases noteCall_subset ht with ht | rfl
      · exact Or.inl ht
      · exact Or.inr ⟨call, List.mem_cons_self .., rfl⟩
    · exact Or.inr ⟨other, List.mem_cons_of_mem _ hother, rfl⟩

theorem length_run_noteCall (times : List Rat) (calls : List (BreakerCall μ)) :
    (run noteCall times calls).length ≤
      times.length + calls.countP fun call => call.op = .recordFailure := by
  induction calls generalizing times with
  | nil => exact Nat.le_refl _
  | cons call calls ih =>
    refine Nat.le_trans (ih _) ?_
    rw [List.countP_cons]
    unfold noteCall
    cases call.op with
    | isOpen => simp
    | recordFailure =>
      rw [List.length_append, List.length_singleton]
      simp only [decide_true, if_true]
      omega
    | recordSuccess => simp

/-! ## The circuits of all models -/

variable [DecidableEq μ]

theorem circuits_eq (calls : List (BreakerCall μ)) (m : μ) :
    circuits calls m = run Circuit.next {} (calls.filter fun call => call.model = m) :=
  run_nextAt ..

theorem caused (calls : List (BreakerCall μ)) (m : μ) :
    Caused (circuits calls m) (failuresSince m calls) := by
  rw [circuits_eq]
  exact Caused.run ⟨Nat.le_refl _, by simp, by simp⟩ _

/-- The calls for other models can be left out. -/
theorem answer_filter (calls : List (BreakerCall μ)) (m : μ) (now : Rat) :
    answer calls m now = answer (calls.filter fun call => call.model = m) m now := by
  unfold answer
  rw [circuits_eq, circuits_eq, List.filter_filter]
  simp only [Bool.and_self]

/-- A failure has the time of a call. -/
theorem mem_failuresSince {m : μ} {calls : List (BreakerCall μ)} {t : Rat}
    (h : t ∈ failuresSince m calls) : ∃ call ∈ calls, call.time = t := by
  rcases mem_run_noteCall h with h | ⟨call, hcall, ht⟩
  · exact absurd h List.not_mem_nil
  · exact ⟨call, (List.mem_filter.mp hcall).1, ht⟩

/-- After a success only the failures that follow it count. -/
theorem length_failuresSince_le {m : μ} {earlier later : List (BreakerCall μ)}
    {call : BreakerCall μ} (hop : call.op = .recordSuccess) (hmodel : call.model = m) :
    (failuresSince m (earlier ++ call :: later)).length ≤ failureCount m later := by
  have hreset : ∀ times, noteCall times call = [] := by
    intro times
    unfold noteCall
    rw [hop]
  have hcount : failureCount m later =
      (later.filter fun call => call.model = m).countP fun call => call.op = .recordFailure := by
    unfold failureCount
    rw [List.countP_filter]
    refine List.countP_congr fun other _ => ?_
    simp [and_comm]
  unfold failuresSince
  rw [List.filter_append, List.filter_cons_of_pos (by simpa using hmodel), run_append, run, hreset,
    hcount]
  refine Nat.le_trans (length_run_noteCall _ _) ?_
  rw [List.length_nil, Nat.zero_add]

/-- Whatever was called before, `is_open` says yes only for cause. -/
theorem opens_for_cause (calls : List (BreakerCall μ)) (m : μ) (now : Rat)
    (hclock : Clocked (calls ++ [⟨.isOpen, m, now⟩])) : ForCause calls m now := by
  have hbefore : ∀ call ∈ calls, call.time ≤ now := by
    unfold Clocked at hclock
    rw [List.map_append, List.pairwise_append] at hclock
    exact fun call hcall => hclock.2.2 _ (List.mem_map_of_mem hcall) _ (List.mem_singleton_self _)
  have hanswer := (caused calls m).answer now
  refine ⟨?_, ?_, ?_, answer_filter calls m now, ?_⟩
  · unfold answer
    rcases hanswer with h | ⟨h, _⟩ <;> rw [h] <;> simp
  · intro hyes
    unfold answer at hyes
    rcases hanswer with h | ⟨_, henough, _⟩
    · rw [h] at hyes
      exact absurd hyes (by simp)
    · exact henough
  · intro hyes
    unfold answer at hyes
    rcases hanswer with h | ⟨_, _, last, hlast, hrecent⟩
    · rw [h] at hyes
      exact absurd hyes (by simp)
    · obtain ⟨call, hcall, htime⟩ := mem_failuresSince (List.mem_of_getLast? hlast)
      exact ⟨last, hlast, htime ▸ hbefore call hcall, hrecent⟩
  · rintro earlier call later rfl hop hmodel hfew
    rcases hanswer with h | ⟨_, henough, _⟩
    · exact h
    · have hlength : (failuresSince m (earlier ++ call :: later)).length ≤ failureCount m later :=
        length_failuresSince_le hop hmodel
      exact absurd (Nat.le_trans henough hlength) (Nat.not_le_of_lt hfew)

/-- Five failures of one model and a success of another. -/
def fiveFailures : List (BreakerCall Nat) :=
  List.replicate 5 ⟨.recordFailure, 0, 1⟩ ++ [⟨.recordSuccess, 1, 2⟩]

theorem fiveFailures_open :
    answer fiveFailures 0 90 = some true ∧ ForCause fiveFailures 0 90 := by
  have hclock : Clocked (fiveFailures ++ [⟨.isOpen, 0, 90⟩]) := by
    unfold Clocked fiveFailures
    decide
  exact ⟨by decide +kernel, opens_for_cause fiveFailures 0 90 hclock⟩

end Eidetic.Upstream
